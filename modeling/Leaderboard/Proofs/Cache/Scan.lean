import Leaderboard.Proofs.Cache.Invariant

/-!
# Scans

A scan inserts many new keys, each once, and reads none of them.  It should not drive
the keys out of the main queue that are read.

Keys of a scan are not read, so they never get out of the small queue alive
(`Cache.Cold`).  The number of them that wait in the small queue (`Cache.waiting`) does
not fall with an insertion, and it rises if the insertion evicted an entry from the
main queue.  This needs fewer than `smallCapacity` keys in the small queue, so it
happens `smallCapacity` times at most, however long the scan is.  This is
`scan_resistant`.
-/

namespace Leaderboard

namespace Cache

open Relation (ReflTransGen)

variable {κ ν : Type} [Ord κ]

/-! ## The keys that a cache knows -/

/-- A key has an entry or is remembered. -/
def Known (c : Cache κ ν) (key : κ) : Prop := key ∈ c.entries ∨ key ∈ c.tags

section

variable [Std.TransOrd κ] [Std.LawfulEqOrd κ] {c c' : Cache κ ν} {d : Departure κ ν} {key : κ}
  {value : ν}

theorem Stays.known (h : Stays c c') (hknown : c'.Known key) : c.Known key := by
  cases h with
  | promote hsmall he hreads => exact hknown.imp_left (mem_of_mem_insert (mem_of_getElem? he))
  | requeue hmain he hreads => exact hknown.imp_left (mem_of_mem_insert (mem_of_getElem? he))

/-- A key that leaves and is remembered had an entry. -/
theorem Leaves.known (h : Leaves c d c') (hknown : c'.Known key) : c.Known key := by
  obtain hkey | htag := hknown
  · exact .inl (Std.TreeMap.mem_keys.mp (h.keys_perm.mem_iff.mpr
      (List.mem_cons_of_mem d.key (Std.TreeMap.mem_keys.mpr hkey))))
  · cases h with
    | small hsmall he hreads =>
        obtain rfl | htag := mem_tags_remember htag
        · exact .inl (mem_of_getElem? he)
        · exact .inr htag
    | main hroom hmain he hreads => exact .inr htag

theorem Evicts.known (h : Evicts c d c') (hknown : c'.Known key) : c.Known key :=
  h.induct (P := fun between => between.Known key → c.Known key)
    (fun _ _ hstays hbefore hk => hbefore (hstays.known hk))
    (fun _ _ _ hleaves hbefore hk => hbefore (hleaves.known hk)) id hknown

theorem known_enter {k : κ} (hknown : (c.enter key value).Known k) : k = key ∨ c.Known k := by
  obtain hk | htag := hknown
  · obtain heq | hk := Std.TreeMap.mem_insert.mp hk
    · exact .inl (Std.LawfulEqOrd.eq_of_compare heq).symm
    · rw [entries_enqueue] at hk
      exact .inr (.inl hk)
  · exact .inr (.inr (mem_tags_enqueue htag).2)

/-- An insertion makes no other key known. -/
theorem Inserted.known {ds : List (Departure κ ν)} {k : κ} (h : Inserted c key value ds c')
    (hknown : c'.Known k) : k = key ∨ c.Known k := by
  cases h with
  | replaced he => exact .inr (hknown.imp_left (mem_of_mem_insert (mem_of_getElem? he)))
  | entered hnew hroom => exact known_enter hknown
  | evicting hnew hfull hevicts => exact (known_enter hknown).imp_right hevicts.known

/-- An operation makes no key known but the one that it inserts. -/
theorem Kept.known_after (h : c.Kept) {op : Op κ ν} (hknown : (c.after op).Known key) :
    c.Known key ∨ ∃ value, op = .insert key value := by
  cases op with
  | get k =>
      refine .inl ?_
      rw [Cache.after, Cache.get] at hknown
      cases he : c.entries[k]? with
      | none => rwa [he] at hknown
      | some e =>
          rw [he] at hknown
          exact hknown.imp_left (mem_of_mem_insert (mem_of_getElem? he))
  | insert k value =>
      obtain rfl | hknown := (h.insert_outcome k value).2.known hknown
      · exact .inr ⟨value, rfl⟩
      · exact .inl hknown

theorem Kept.known_foldl (h : c.Kept) {ops : List (Op κ ν)}
    (hknown : (ops.foldl Cache.after c).Known key) :
    c.Known key ∨ ∃ value, .insert key value ∈ ops := by
  induction ops generalizing c with
  | nil => exact .inl hknown
  | cons op ops ih =>
      obtain hknown | ⟨value, hmem⟩ := ih (h.after op) hknown
      · obtain hknown | ⟨value, rfl⟩ := h.known_after hknown
        · exact .inl hknown
        · exact .inr ⟨value, List.mem_cons_self⟩
      · exact .inr ⟨value, List.mem_cons_of_mem op hmem⟩

/-- The keys that a cache knows were inserted. -/
theorem known_run {capacity : Nat} {ops : List (Op κ ν)} (h : (run capacity ops).Known key) :
    ∃ value, .insert key value ∈ ops := by
  obtain hnone | hinserted := (kept_ofCapacity capacity).known_foldl h
  · obtain hkey | htag := hnone
    · exact absurd hkey Std.TreeMap.not_mem_emptyc
    · exact absurd htag Std.TreeMap.not_mem_emptyc
  · exact hinserted

end

/-! ## Keys that are not read -/

/-- The number of some keys that wait in the small queue. -/
def waiting (scanned : κ → Bool) (c : Cache κ ν) : Nat := c.small.countP scanned

section

variable [Std.TransOrd κ] [Std.LawfulEqOrd κ]

/-- No read of the keys counts, and none of them is in the main queue. -/
structure Cold (scanned : κ → Bool) (c : Cache κ ν) : Prop where
  kept : c.Kept
  unread : ∀ ⦃key : κ⦄ ⦃e : Entry ν⦄, scanned key → c.entries[key]? = some e → e.reads = 0
  off_main : ∀ ⦃key⦄, key ∈ c.main → scanned key = false

namespace Cold

variable {scanned : κ → Bool} {c c' : Cache κ ν} {d : Departure κ ν} {key : κ} {value : ν}

/-- None of the keys has to be there. -/
theorem of_unknown (h : c.Kept) (hunknown : ∀ key, scanned key → ¬ c.Known key) :
    Cold scanned c where
  kept := h
  unread := fun key _ hkey he => absurd (.inl (mem_of_getElem? he)) (hunknown key hkey)
  off_main := fun key hkey => Bool.eq_false_iff.mpr fun hscanned =>
    hunknown key hscanned (.inl (h.queued.mem (List.mem_append_right _ hkey)))

/-- A key that stays was read, so it is none of them. -/
theorem stays (h : Cold scanned c) (hstays : Stays c c') :
    Cold scanned c' ∧ waiting scanned c' = waiting scanned c := by
  have hkept := h.kept.of_stays hstays
  cases hstays with
  | @promote key rest e hsmall he hreads =>
      have hkey : scanned key = false := Bool.eq_false_iff.mpr fun hscanned => by
        rw [h.unread hscanned he] at hreads
        cases hreads
      refine ⟨⟨hkept, fun k e' hk he' => ?_, fun k hk => ?_⟩, ?_⟩
      · obtain ⟨-, rfl⟩ | ⟨-, he'⟩ := getElem?_of_insert he'
        · rfl
        · exact h.unread hk he'
      · obtain hk | hk := List.mem_append.mp hk
        · exact h.off_main hk
        · rwa [List.mem_singleton.mp hk]
      · rw [waiting, waiting, hsmall, List.countP_cons_of_neg (Bool.eq_false_iff.mp hkey)]
  | @requeue key rest e hmain he hreads =>
      have hkey : scanned key = false := h.off_main (hmain ▸ List.mem_cons_self)
      refine ⟨⟨hkept, fun k e' hk he' => ?_, fun k hk => ?_⟩, rfl⟩
      · obtain ⟨rfl, -⟩ | ⟨-, he'⟩ := getElem?_of_insert he'
        · rw [hkey] at hk
          cases hk
        · exact h.unread hk he'
      · refine h.off_main (hmain ▸ ?_)
        rw [List.mem_append, List.mem_singleton] at hk
        exact List.mem_cons.mpr hk.symm

/-- An entry leaves the main queue only while few of the keys wait. -/
theorem leaves (h : Cold scanned c) (hleaves : Leaves c d c') :
    Cold scanned c' ∧
      [d].countP (·.queue = .main) + min (waiting scanned c) c.smallCapacity ≤
        min (waiting scanned c' + 1) c.smallCapacity := by
  have hkept := h.kept.of_leaves hleaves
  cases hleaves with
  | @small key rest e hsmall he hreads =>
      refine ⟨⟨hkept, fun k e' hk he' => h.unread hk (getElem?_of_erase he').2, h.off_main⟩, ?_⟩
      have hle : c.small.countP scanned ≤ rest.countP scanned + 1 := by
        rw [hsmall, List.countP_cons]
        split <;> omega
      show 0 + min (c.small.countP scanned) c.smallCapacity ≤
        min (rest.countP scanned + 1) c.smallCapacity
      omega
  | @main key rest e hroom hmain he hreads =>
      refine ⟨⟨hkept, fun k e' hk he' => h.unread hk (getElem?_of_erase he').2,
        fun k hk => h.off_main (hmain ▸ List.mem_cons_of_mem key hk)⟩, ?_⟩
      have hlt : c.small.countP scanned < c.smallCapacity :=
        Nat.lt_of_le_of_lt List.countP_le_length hroom
      show 1 + min (c.small.countP scanned) c.smallCapacity ≤
        min (c.small.countP scanned + 1) c.smallCapacity
      omega

theorem evicts (h : Cold scanned c) (hevicts : Evicts c d c') :
    Cold scanned c' ∧
      [d].countP (·.queue = .main) + min (waiting scanned c) c.smallCapacity ≤
        min (waiting scanned c' + 1) c.smallCapacity := by
  obtain ⟨between, hmoves, hleave⟩ := hevicts
  obtain ⟨hcold, hwaiting⟩ : Cold scanned between ∧
      waiting scanned between = waiting scanned c :=
    stays_induct (P := fun b => Cold scanned b ∧ waiting scanned b = waiting scanned c)
      (fun _ _ hstep hb => ⟨(hb.1.stays hstep).1, (hb.1.stays hstep).2.trans hb.2⟩) hmoves
      ⟨h, rfl⟩
  have hsmall : between.smallCapacity = c.smallCapacity := by
    rw [smallCapacity, capacity_eq_of_stays hmoves, smallCapacity]
  rw [← hwaiting, ← hsmall]
  exact hcold.leaves hleave

/-- A new key that is not remembered waits in the small queue. -/
theorem enter (h : Cold scanned c) (hkey : scanned key) (hunknown : ¬ c.Known key)
    (hroom : c.size < c.capacity) (value : ν) :
    Cold scanned (c.enter key value) ∧
      waiting scanned (c.enter key value) = waiting scanned c + 1 := by
  obtain ⟨hnew, htag⟩ := not_or.mp hunknown
  have henter : c.enter key value =
      { c with small := c.small ++ [key], entries := c.entries.insert key { value } } := by
    have hcontains : ¬ c.tags.contains key := fun h => htag (Std.TreeMap.contains_iff_mem.mp h)
    rw [Cache.enter, enqueue, if_neg hcontains]
  refine ⟨⟨h.kept.enter hnew hroom value, fun k e hk he => ?_, fun k hk => ?_⟩, ?_⟩
  · rw [henter] at he
    obtain ⟨-, rfl⟩ | ⟨-, he⟩ := getElem?_of_insert he
    · rfl
    · exact h.unread hk he
  · rw [henter] at hk
    exact h.off_main hk
  · rw [henter, waiting, List.countP_append, List.countP_singleton, if_pos hkey, waiting]

/-- Each insertion makes one more of the keys wait, in place of the one that may have left
the small queue.  So the number of them that wait, counted up to what the queue is meant
for, rises with every eviction from the main queue. -/
theorem inserted (h : Cold scanned c) (hkey : scanned key) (hunknown : ¬ c.Known key)
    {ds : List (Departure κ ν)} (hinserted : Inserted c key value ds c') :
    Cold scanned c' ∧
      ds.countP (·.queue = .main) + min (waiting scanned c) c.smallCapacity ≤
        min (waiting scanned c') c.smallCapacity := by
  cases hinserted with
  | replaced he => exact absurd (.inl (mem_of_getElem? he)) hunknown
  | entered hnew hroom =>
      obtain ⟨hcold, hwaiting⟩ := h.enter hkey hunknown hroom value
      refine ⟨hcold, ?_⟩
      rw [hwaiting, List.countP_nil]
      omega
  | @evicting d c₁ hnew hfull hevicts =>
      obtain ⟨hcold₁, hle⟩ := h.evicts hevicts
      obtain ⟨hcold, hwaiting⟩ := hcold₁.enter hkey
        (fun hknown => hunknown (hevicts.known hknown)) (hevicts.size_lt hfull) value
      rw [hwaiting]
      exact ⟨hcold, hle⟩

end Cold

/-! ## Whole scans -/

/-- The cache after some keys got values, one after the other. -/
def insertAll (c : Cache κ ν) : List (κ × ν) → Cache κ ν
  | [] => c
  | (key, value) :: rest => insertAll (c.insert key value).2 rest

/-- What the callback is told meanwhile. -/
def evictedAll (c : Cache κ ν) : List (κ × ν) → List (κ × ν)
  | [] => []
  | (key, value) :: rest => (c.insert key value).1 ++ evictedAll (c.insert key value).2 rest

/-- The evictions, with the queues that the entries left from. -/
def leavingAll (c : Cache κ ν) : List (κ × ν) → List (Departure κ ν)
  | [] => []
  | (key, value) :: rest => c.leaving key ++ leavingAll (c.insert key value).2 rest

theorem Kept.leavingAll_entries {c : Cache κ ν} (h : c.Kept) (scan : List (κ × ν)) :
    (c.leavingAll scan).map Departure.entry = c.evictedAll scan := by
  induction scan generalizing c with
  | nil => rfl
  | cons entry rest ih =>
      rw [leavingAll, evictedAll, List.map_append, ih (h.insert entry.1 entry.2),
        (h.insert_outcome entry.1 entry.2).1]

omit [Std.TransOrd κ] [Std.LawfulEqOrd κ] in
/-- Each eviction from the small queue gives a tag. -/
theorem Inserted.lastTag_eq {c c' : Cache κ ν} {key : κ} {value : ν}
    {ds : List (Departure κ ν)} (h : Inserted c key value ds c') :
    c'.lastTag = c.lastTag + ds.countP (·.queue = .small) := by
  cases h with
  | replaced he => rfl
  | entered hnew hroom => exact lastTag_enqueue c key
  | @evicting d c₁ hnew hfull hevicts =>
      refine (lastTag_enqueue c₁ key).trans ?_
      obtain ⟨between, hmoves, hleave⟩ := hevicts
      have hbetween : between.lastTag = c.lastTag :=
        stays_induct (P := fun b => b.lastTag = c.lastTag)
          (fun _ _ hstep hb => by cases hstep <;> exact hb) hmoves rfl
      rw [← hbetween]
      cases hleave with
      | small hsmall he hreads => rfl
      | main hroom hmain he hreads => rfl

theorem Kept.lastTag_insertAll {c : Cache κ ν} (h : c.Kept) (scan : List (κ × ν)) :
    (c.insertAll scan).lastTag =
      c.lastTag + (c.leavingAll scan).countP (·.queue = .small) := by
  induction scan generalizing c with
  | nil => rfl
  | cons entry rest ih =>
      rw [insertAll, leavingAll, List.countP_append, ih (h.insert entry.1 entry.2),
        (h.insert_outcome entry.1 entry.2).2.lastTag_eq, Nat.add_assoc]

theorem Cold.leavingAll_main {scanned : κ → Bool} {c : Cache κ ν} {scan : List (κ × ν)}
    (h : Cold scanned c) (hscanned : ∀ key ∈ scan.map Prod.fst, scanned key)
    (hdistinct : (scan.map Prod.fst).Nodup)
    (hunknown : ∀ key ∈ scan.map Prod.fst, ¬ c.Known key) :
    (c.leavingAll scan).countP (·.queue = .main) + min (waiting scanned c) c.smallCapacity ≤
      c.smallCapacity := by
  induction scan generalizing c with
  | nil => exact Nat.le_trans (Nat.le_of_eq (Nat.zero_add _)) (Nat.min_le_right _ _)
  | cons entry rest ih =>
      obtain ⟨hfirst, hrest⟩ := List.nodup_cons.mp hdistinct
      have hinserted := (h.kept.insert_outcome entry.1 entry.2).2
      obtain ⟨hcold, hstep⟩ := h.inserted (hscanned _ List.mem_cons_self)
        (hunknown _ List.mem_cons_self) hinserted
      have hlater := ih hcold (fun key hkey => hscanned key (List.mem_cons_of_mem _ hkey)) hrest
        fun key hkey hknown => by
          obtain rfl | hknown := hinserted.known hknown
          · exact hfirst hkey
          · exact hunknown key (List.mem_cons_of_mem _ hkey) hknown
      have hsmall : (c.insert entry.1 entry.2).2.smallCapacity = c.smallCapacity := by
        rw [smallCapacity, hinserted.capacity_eq, smallCapacity]
      rw [hsmall] at hlater
      rw [leavingAll, List.countP_append]
      omega

/-- A scan, which inserts new keys and reads none, evicts no more entries from the main
queue than the small queue is meant for, however long it is.  All the others that the
callback is told come from the small queue, and each of them gives a tag. -/
theorem scan_resistant (capacity : Nat) (ops : List (Op κ ν)) (scan : List (κ × ν))
    (hdistinct : (scan.map Prod.fst).Nodup)
    (hnew : ∀ key ∈ scan.map Prod.fst, ∀ value, .insert key value ∉ ops) :
    let c := run capacity ops
    (c.leavingAll scan).map Departure.entry = c.evictedAll scan ∧
      (c.leavingAll scan).countP (·.queue = .main) ≤ max 1 (capacity / 10) ∧
      (c.insertAll scan).lastTag = c.lastTag + (c.leavingAll scan).countP (·.queue = .small) := by
  classical
  intro c
  have h : c.Kept := kept_run capacity ops
  have hunknown : ∀ key ∈ scan.map Prod.fst, ¬ c.Known key := by
    intro key hkey hknown
    obtain ⟨value, hmem⟩ := known_run hknown
    exact hnew key hkey value hmem
  have hcold : Cold (fun key => decide (key ∈ scan.map Prod.fst)) c :=
    .of_unknown h fun key hkey => hunknown key (of_decide_eq_true hkey)
  have hmain := hcold.leavingAll_main (fun key hkey => decide_eq_true hkey) hdistinct hunknown
  have hsmall : c.smallCapacity = max 1 (capacity / 10) := by
    rw [smallCapacity, capacity_run]
    omega
  rw [hsmall] at hmain
  exact ⟨h.leavingAll_entries scan, Nat.le_trans (Nat.le_add_right _ _) hmain,
    h.lastTag_insertAll scan⟩

/-- A cache for one entry, which was read twice: the scan evicts it from the main queue,
and after that only its own keys. -/
theorem scan_resistant_single :
    let ops : List (Op Nat Nat) := [.insert 1 10, .get 1, .get 1]
    let scan := [(2, 20), (3, 30), (4, 40)]
    (run 1 ops).evictedAll scan = [(1, 10), (2, 20), (3, 30)] ∧
      (((run 1 ops).leavingAll scan).countP (·.queue = .main) ≤ 1 ∧
        ((run 1 ops).insertAll scan).lastTag = 2) := by
  intro ops scan
  have hnew : ∀ key ∈ scan.map Prod.fst, ∀ value, .insert key value ∉ ops := by
    intro key hkey value hmem
    simp only [ops, List.mem_cons, Op.insert.injEq, reduceCtorEq, List.not_mem_nil, or_false]
      at hmem
    rw [hmem.1] at hkey
    exact absurd hkey (by decide)
  obtain ⟨-, hmain, htags⟩ := scan_resistant 1 ops scan (by decide) hnew
  have hcount : ((run 1 ops).leavingAll scan).countP (·.queue = .small) = 2 := by decide +kernel
  exact ⟨by decide +kernel, hmain, htags.trans (by rw [hcount]; decide +kernel)⟩

end

end Cache

end Leaderboard
