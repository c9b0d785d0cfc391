import Leaderboard.Proofs.Cache.Accounting

/-!
# What the ghost queue remembers

A key that was evicted from the small queue is remembered until it comes back or as many
keys as the cache may hold were evicted from the small queue after it.

The tag of a ghost is the number of its eviction among those from the small queue, so
the tags go up by one along the ghost queue (`Cache.Consecutive`).  The places beyond the
capacity are then those whose tags are at least the capacity behind the last one
(`Consecutive.mem_take_iff`), and forgetting them takes these tags away and no other
(`getElem?_tags_remember`).

`Cache.LastSmall` tells the number of a key's last departure from the departures alone,
if it was one from the small queue.  By `Cache.Recalls` the tags are just the numbers of
the keys without an entry that are less than the capacity behind.  Every departure and
every entrance keeps it, whatever stale places there are in the ghost queue.  Hence
`run_remembers` says of every run into which queue a new key is put.
-/

namespace Leaderboard

namespace Cache

open Relation (ReflTransGen)

variable {κ ν : Type} [Ord κ]

/-! ## The departures of a key -/

section

omit [Ord κ]

/-- The number of departures from the small queue. -/
def smallCount (ds : List (Departure κ ν)) : Nat := ds.countP fun d => d.queue = .small

@[simp] theorem smallCount_append (ds es : List (Departure κ ν)) :
    smallCount (ds ++ es) = smallCount ds + smallCount es := List.countP_append

theorem smallCount_cons_small {d : Departure κ ν} (h : d.queue = .small)
    (ds : List (Departure κ ν)) : smallCount (d :: ds) = smallCount ds + 1 :=
  List.countP_cons_of_pos (decide_eq_true h)

theorem smallCount_cons_main {d : Departure κ ν} (h : d.queue = .main)
    (ds : List (Departure κ ν)) : smallCount (d :: ds) = smallCount ds := by
  refine List.countP_cons_of_neg ?_
  simp [h]

/-- The last departure of a key was from the small queue, and it was the one of this
number.  The newest departure comes first. -/
inductive LastSmall (key : κ) : List (Departure κ ν) → Nat → Prop
  /-- It is the newest of all. -/
  | here {d : Departure κ ν} {older : List (Departure κ ν)} (hkey : d.key = key)
      (hqueue : d.queue = .small) : LastSmall key (d :: older) (smallCount older + 1)
  /-- Another key left after it. -/
  | later {d : Departure κ ν} {older : List (Departure κ ν)} {number : Nat}
      (hkey : d.key ≠ key) (h : LastSmall key older number) : LastSmall key (d :: older) number

/-- Of some departures, the newest first, the last one of the key was from the small
queue, and fewer than `n` others were from the small queue since. -/
def Remembered (n : Nat) (ds : List (Departure κ ν)) (key : κ) : Prop :=
  ∃ newer d older, ds = newer ++ d :: older ∧ d.key = key ∧ d.queue = .small ∧
    (∀ other ∈ newer, other.key ≠ key) ∧ smallCount newer < n

variable {key : κ} {number : Nat} {d : Departure κ ν} {ds older : List (Departure κ ν)}

theorem LastSmall.append (h : LastSmall key older number) {newer : List (Departure κ ν)}
    (hnewer : ∀ other ∈ newer, other.key ≠ key) : LastSmall key (newer ++ older) number := by
  induction newer with
  | nil => exact h
  | cons d newer ih =>
      have hrest := ih fun other hother => hnewer other (List.mem_cons_of_mem d hother)
      exact .later (hnewer d List.mem_cons_self) hrest

/-- The departures after the last one of the key. -/
theorem LastSmall.split (h : LastSmall key ds number) :
    ∃ newer d older, ds = newer ++ d :: older ∧ d.key = key ∧ d.queue = .small ∧
      (∀ other ∈ newer, other.key ≠ key) ∧ smallCount newer + number = smallCount ds := by
  induction h with
  | @here d older hkey hqueue =>
      refine ⟨[], d, older, rfl, hkey, hqueue, nofun, ?_⟩
      rw [smallCount_cons_small hqueue, smallCount, List.countP_nil, Nat.zero_add]
  | @later e rest number hkey hlast ih =>
      obtain ⟨newer, d, older, rfl, hd, hqueue, hnewer, hcount⟩ := ih
      refine ⟨e :: newer, d, older, rfl, hd, hqueue, List.forall_mem_cons.mpr ⟨hkey, hnewer⟩, ?_⟩
      simp only [smallCount, List.countP_cons] at hcount ⊢
      omega

/-- Whether a key is remembered is told by the number of its last departure. -/
theorem remembered_iff {n : Nat} :
    Remembered n ds key ↔ ∃ number, LastSmall key ds number ∧ smallCount ds < number + n := by
  constructor
  · rintro ⟨newer, d, older, rfl, hkey, hqueue, hnewer, hlt⟩
    refine ⟨smallCount older + 1, .append (.here hkey hqueue) hnewer, ?_⟩
    rw [smallCount_append, smallCount_cons_small hqueue]
    omega
  · rintro ⟨number, hlast, hlt⟩
    obtain ⟨newer, d, older, heq, hkey, hqueue, hnewer, hcount⟩ := hlast.split
    exact ⟨newer, d, older, heq, hkey, hqueue, hnewer, by omega⟩

theorem lastSmall_cons_self (hqueue : d.queue = .small) :
    LastSmall d.key (d :: ds) number ↔ number = smallCount ds + 1 := by
  constructor
  · rintro (⟨-, -⟩ | ⟨hkey, -⟩)
    · rfl
    · exact absurd rfl hkey
  · rintro rfl
    exact .here rfl hqueue

theorem not_lastSmall_of_main (hqueue : d.queue = .main) : ¬ LastSmall d.key (d :: ds) number := by
  rintro (⟨-, hsmall⟩ | ⟨hkey, -⟩)
  · rw [hqueue] at hsmall
    cases hsmall
  · exact hkey rfl

theorem lastSmall_cons_of_ne (hkey : d.key ≠ key) :
    LastSmall key (d :: ds) number ↔ LastSmall key ds number := by
  constructor
  · rintro (⟨heq, -⟩ | ⟨-, hlast⟩)
    · exact absurd heq hkey
    · exact hlast
  · exact .later hkey

end

/-! ## The places that are forgotten -/

/-- The tags go up by one along the ghost queue up to the last one. -/
def Consecutive (ghosts : List (κ × Nat)) (lastTag : Nat) : Prop :=
  ∀ ⦃i ghost⦄, ghosts[i]? = some ghost → ghost.2 + ghosts.length = lastTag + 1 + i

namespace Consecutive

omit [Ord κ]

variable {ghosts : List (κ × Nat)} {lastTag : Nat}

theorem drop (h : Consecutive ghosts lastTag) {n : Nat} (hn : n ≤ ghosts.length) :
    Consecutive (ghosts.drop n) lastTag := by
  intro i ghost hghost
  rw [List.getElem?_drop] at hghost
  have hplace := h hghost
  rw [List.length_drop]
  omega

theorem snoc (h : Consecutive ghosts lastTag) (key : κ) :
    Consecutive (ghosts ++ [(key, lastTag + 1)]) (lastTag + 1) := by
  intro i ghost hghost
  rw [List.length_append, List.length_singleton]
  obtain hold | hnew := Nat.lt_or_ge i ghosts.length
  · rw [List.getElem?_append_left hold] at hghost
    have hplace := h hghost
    omega
  · rw [List.getElem?_append_right hnew, List.getElem?_singleton] at hghost
    split at hghost
    · cases hghost
      dsimp only
      omega
    · cases hghost

/-- The places beyond the capacity are those whose tags are at least the capacity behind. -/
theorem mem_take_iff (h : Consecutive ghosts lastTag) {ghost : κ × Nat} (hghost : ghost ∈ ghosts)
    (capacity : Nat) :
    ghost ∈ ghosts.take (ghosts.length - capacity) ↔ ghost.2 + capacity ≤ lastTag := by
  constructor
  · intro htaken
    obtain ⟨i, hi⟩ := List.mem_iff_getElem?.mp htaken
    rw [List.getElem?_take] at hi
    split at hi
    · rename_i hlt
      have hplace := h hi
      omega
    · cases hi
  · intro hbehind
    obtain ⟨i, hi⟩ := List.mem_iff_getElem?.mp hghost
    have hplace := h hi
    refine List.mem_iff_getElem?.mpr ⟨i, ?_⟩
    rw [List.getElem?_take_of_lt (by omega)]
    exact hi

end Consecutive

section

variable [Std.TransOrd κ] [Std.LawfulEqOrd κ]

theorem getElem?_expire_iff {tags : Std.TreeMap κ Nat} {ghost : κ × Nat} {key : κ} {tag : Nat} :
    (expire tags ghost)[key]? = some tag ↔ (key, tag) ≠ ghost ∧ tags[key]? = some tag := by
  refine ⟨getElem?_of_expire, ?_⟩
  rintro ⟨hne, htag⟩
  rw [expire]
  split
  · rename_i hghost
    -- the tag that is erased is the one of the place, so it is of another key
    have hkey : key ≠ ghost.1 := by
      rintro rfl
      rw [htag] at hghost
      exact hne (Prod.ext rfl (Option.some.inj hghost))
    rwa [getElem?_erase_of_ne _ hkey]
  · exact htag

/-- A tag is lost with the place that it is of. -/
theorem getElem?_foldl_expire {ghosts : List (κ × Nat)} {tags : Std.TreeMap κ Nat} {key : κ}
    {tag : Nat} :
    (ghosts.foldl expire tags)[key]? = some tag ↔ (key, tag) ∉ ghosts ∧ tags[key]? = some tag := by
  induction ghosts generalizing tags with
  | nil => simp
  | cons ghost rest ih =>
      rw [List.foldl_cons, ih, getElem?_expire_iff, List.mem_cons, not_or]
      exact ⟨fun h => ⟨⟨h.2.1, h.1⟩, h.2.2⟩, fun h => ⟨h.1.2, h.1.1, h.2⟩⟩

/-- After one more key is remembered the tags are those that are less than the capacity behind. -/
theorem getElem?_tags_remember {c : Cache κ ν} (htagged : Tagged c.ghosts c.tags c.lastTag)
    (hghosts : Consecutive c.ghosts c.lastTag) (key : κ) {k : κ} {tag : Nat} :
    (c.remember key).tags[k]? = some tag ↔
      (c.tags.insert key (c.lastTag + 1))[k]? = some tag ∧
        c.lastTag + 1 < tag + c.capacity := by
  rw [remember, forget_eq]
  dsimp only
  rw [getElem?_foldl_expire, and_comm]
  refine and_congr_right fun htag => ?_
  have hplace := (htagged.remember key).mem htag
  rw [(hghosts.snoc key).mem_take_iff hplace, Nat.not_le]

omit [Std.TransOrd κ] [Std.LawfulEqOrd κ] in
theorem consecutive_remember {c : Cache κ ν} (h : Consecutive c.ghosts c.lastTag) (key : κ) :
    Consecutive (c.remember key).ghosts (c.remember key).lastTag := by
  rw [remember, forget_eq]
  exact (h.snoc key).drop (Nat.sub_le _ _)

theorem getElem?_tags_enqueue (c : Cache κ ν) {key k : κ} (hk : k ≠ key) :
    (c.enqueue key).tags[k]? = c.tags[k]? := by
  rw [enqueue]
  split
  · exact getElem?_erase_of_ne _ hk
  · rfl

/-! ## The tags and the departures -/

/-- The tags are the numbers of the last departures of the keys that are remembered. -/
structure Recalls (c : Cache κ ν) (ds : List (Departure κ ν)) : Prop where
  kept : c.Kept
  /-- The departures from the small queue are numbered, -/
  lastTag_eq : c.lastTag = smallCount ds
  /-- in the order of the ghost queue. -/
  consecutive : Consecutive c.ghosts c.lastTag
  /-- A key has the number of its last departure as its tag while it is remembered. -/
  tags_iff : ∀ {key tag}, c.tags[key]? = some tag ↔
    key ∉ c.entries ∧ LastSmall key ds tag ∧ c.lastTag < tag + c.capacity

omit [Std.LawfulEqOrd κ] in
theorem recalls_ofCapacity (capacity : Nat) : (ofCapacity capacity : Cache κ ν).Recalls [] where
  kept := kept_ofCapacity capacity
  lastTag_eq := rfl
  consecutive := by
    intro i ghost hghost
    cases hghost
  tags_iff := by
    intro key tag
    have hempty : (∅ : Std.TreeMap κ Nat)[key]? = none := Std.TreeMap.getElem?_emptyc
    rw [ofCapacity, hempty]
    constructor
    · intro htag
      cases htag
    · rintro ⟨-, hlast, -⟩
      cases hlast

namespace Recalls

variable {c c' : Cache κ ν} {ds : List (Departure κ ν)} {d : Departure κ ν} {key : κ}

omit [Std.LawfulEqOrd κ] in
/-- A key without an entry has a tag just if it is remembered. -/
theorem mem_tags_iff (h : c.Recalls ds) (hkey : key ∉ c.entries) :
    key ∈ c.tags ↔ Remembered c.capacity ds key := by
  rw [remembered_iff, ← h.lastTag_eq]
  constructor
  · intro hmem
    obtain ⟨tag, htag⟩ := getElem?_of_mem hmem
    exact ⟨tag, (h.tags_iff.mp htag).2⟩
  · rintro ⟨tag, hlast⟩
    exact mem_of_getElem? (h.tags_iff.mpr ⟨hkey, hlast⟩)

/-- Keys may change places, and a key that has an entry may get another one. -/
theorem recount (h : c.Recalls ds) {small main : List κ}
    (hperm : (small ++ main).Perm (c.small ++ c.main)) (hkey : key ∈ c.entries) {e : Entry ν}
    (hreads : e.reads ≤ maxReads) (hits : Nat) :
    Recalls { c with small, main, entries := c.entries.insert key e, hits } ds where
  kept := h.kept.recount hperm hkey hreads hits
  lastTag_eq := h.lastTag_eq
  consecutive := h.consecutive
  tags_iff := by
    intro k tag
    have hentries : k ∈ c.entries.insert key e ↔ k ∈ c.entries :=
      ⟨mem_of_mem_insert hkey, fun hk => Std.TreeMap.mem_insert.mpr (.inr hk)⟩
    dsimp only
    rw [hentries]
    exact h.tags_iff

theorem of_stays (h : c.Recalls ds) (hstays : Stays c c') : c'.Recalls ds := by
  have hperm := hstays.perm
  cases hstays with
  | promote hsmall he hreads => exact h.recount hperm (mem_of_getElem? he) (Nat.zero_le _) c.hits
  | requeue hmain he hreads =>
      exact h.recount hperm (mem_of_getElem? he)
        (Nat.le_trans (Nat.sub_le _ _) (h.kept.reads_le he)) c.hits

/-- A key that leaves the small queue gets the next number. -/
theorem tags_of_small (h : c.Recalls ds) (hqueue : d.queue = .small) {k : κ} {tag : Nat} :
    (c.tags.insert d.key (c.lastTag + 1))[k]? = some tag ∧ c.lastTag + 1 < tag + c.capacity ↔
      k ∉ c.entries.erase d.key ∧ LastSmall k (d :: ds) tag ∧
        c.lastTag + 1 < tag + c.capacity := by
  rw [← and_assoc]
  refine and_congr_left fun hlt => ?_
  by_cases hk : k = d.key
  · subst hk
    have hgone : d.key ∉ c.entries.erase d.key :=
      fun hkey => (Std.TreeMap.mem_erase.mp hkey).1 Std.ReflCmp.compare_self
    rw [Std.TreeMap.getElem?_insert_self, and_iff_right hgone, lastSmall_cons_self hqueue,
      ← h.lastTag_eq, Option.some_inj, eq_comm]
  · rw [getElem?_insert_of_ne _ _ hk, mem_erase_iff_of_ne hk,
      lastSmall_cons_of_ne (Ne.symm hk), h.tags_iff]
    exact ⟨fun hall => ⟨hall.1, hall.2.1⟩, fun hall => ⟨hall.1, hall.2, Nat.lt_of_succ_lt hlt⟩⟩

/-- A key that leaves the main queue has no tag. -/
theorem tags_of_main (h : c.Recalls ds) (hqueue : d.queue = .main) (hkey : d.key ∈ c.entries)
    {k : κ} {tag : Nat} :
    c.tags[k]? = some tag ↔
      k ∉ c.entries.erase d.key ∧ LastSmall k (d :: ds) tag ∧ c.lastTag < tag + c.capacity := by
  by_cases hk : k = d.key
  · subst hk
    constructor
    · exact fun htag => absurd hkey (h.tags_iff.mp htag).1
    · exact fun hall => absurd hall.2.1 (not_lastSmall_of_main hqueue)
  · rw [mem_erase_iff_of_ne hk, lastSmall_cons_of_ne (Ne.symm hk)]
    exact h.tags_iff

theorem of_leaves (h : c.Recalls ds) (hleaves : Leaves c d c') : c'.Recalls (d :: ds) := by
  have hkept := h.kept.of_leaves hleaves
  cases hleaves with
  | @small key rest e hsmall he hreads =>
      have hqueue : (⟨.small, key, e.value⟩ : Departure κ ν).queue = .small := rfl
      refine ⟨hkept, ?_, consecutive_remember h.consecutive key, fun {k tag} => ?_⟩
      · rw [smallCount_cons_small hqueue, ← h.lastTag_eq]
        rfl
      · exact (getElem?_tags_remember h.kept.tagged h.consecutive key).trans
          (h.tags_of_small hqueue)
  | @main key rest e hroom hmain he hreads =>
      have hqueue : (⟨.main, key, e.value⟩ : Departure κ ν).queue = .main := rfl
      have hlast := h.lastTag_eq.trans (smallCount_cons_main hqueue ds).symm
      exact ⟨hkept, hlast, h.consecutive, h.tags_of_main hqueue (mem_of_getElem? he)⟩

theorem of_evicts (h : c.Recalls ds) (hevicts : Evicts c d c') : c'.Recalls (d :: ds) := by
  obtain ⟨between, hmoves, hleave⟩ := hevicts
  have hbetween : between.Recalls ds :=
    stays_induct (P := fun between => between.Recalls ds)
      (fun _ _ hstays hc => hc.of_stays hstays) hmoves h
  exact hbetween.of_leaves hleave

/-- A key that is put in has no tag any longer. -/
theorem enter (h : c.Recalls ds) (hnew : key ∉ c.entries) (hroom : c.size < c.capacity)
    (value : ν) : (c.enter key value).Recalls ds where
  kept := h.kept.enter hnew hroom value
  lastTag_eq := (lastTag_enqueue c key).trans h.lastTag_eq
  consecutive := by
    show Consecutive (c.enqueue key).ghosts (c.enqueue key).lastTag
    rw [ghosts_enqueue, lastTag_enqueue]
    exact h.consecutive
  tags_iff := by
    intro k tag
    show (c.enqueue key).tags[k]? = some tag ↔ k ∉ (c.enqueue key).entries.insert key _ ∧
      LastSmall k ds tag ∧ (c.enqueue key).lastTag < tag + (c.enqueue key).capacity
    rw [entries_enqueue, lastTag_enqueue, capacity_enqueue]
    by_cases hk : k = key
    · subst hk
      constructor
      · exact fun htag => absurd rfl (mem_tags_enqueue (mem_of_getElem? htag)).1
      · exact fun hall => absurd Std.TreeMap.mem_insert_self hall.1
    · rw [getElem?_tags_enqueue c hk, mem_insert_iff_of_ne hk]
      exact h.tags_iff

theorem get (h : c.Recalls ds) (key : κ) : (c.get key).2.Recalls ds := by
  rw [Cache.get]
  cases he : c.entries[key]? with
  | none =>
      have hkept := h.kept.get key
      rw [Cache.get, he] at hkept
      exact ⟨hkept, h.lastTag_eq, h.consecutive, h.tags_iff⟩
  | some e => exact h.recount (.refl _) (mem_of_getElem? he) (Nat.min_le_right _ _) (c.hits + 1)

end Recalls

/-! ## Room for a new key -/

/-- The cache after the evictions that make room for one more entry. -/
def cleared (c : Cache κ ν) : Cache κ ν := (makeRoom c.patience c).2

section

variable {c : Cache κ ν} {ds : List (Departure κ ν)} {key : κ}

/-- A key that has no entry is put in once there is room. -/
theorem insert_of_new (hnew : key ∉ c.entries) (value : ν) :
    (c.insert key value).2 = c.cleared.enter key value ∧
      c.leaving key = departures c.patience c := by
  have hnone : c.entries[key]? = none := Std.TreeMap.getElem?_eq_none hnew
  rw [insert, leaving, hnone]
  exact ⟨rfl, rfl⟩

theorem Recalls.cleared (h : c.Recalls ds) :
    c.cleared.Recalls ((departures c.patience c).reverse ++ ds) ∧
      c.cleared.size < c.cleared.capacity ∧ c.cleared.capacity = c.capacity ∧
      ∀ ⦃k⦄, k ∈ c.cleared.entries → k ∈ c.entries := by
  rw [Cache.cleared]
  obtain hroom | hfull := Nat.lt_or_eq_of_le h.kept.size_le
  · obtain ⟨hmake, hdepart⟩ := makeRoom_of_room c.patience hroom
    rw [hmake, hdepart]
    exact ⟨h, hroom, rfl, fun _ hk => hk⟩
  · obtain ⟨d, c', hevicts, hmake, hdepart⟩ :=
      makeRoom_of_full h.kept.queued h.kept.capacity_pos hfull
    rw [hmake, hdepart]
    exact ⟨h.of_evicts hevicts, hevicts.size_lt hfull, hevicts.capacity_eq, fun _ => hevicts.mem⟩

omit [Std.TransOrd κ] [Std.LawfulEqOrd κ] in
/-- The queues of a cache to which a key was put: the small one and the main one. -/
theorem queues_enter (c : Cache κ ν) (key : κ) (value : ν) :
    (key ∈ c.tags → (c.enter key value).small = c.small ∧
      (c.enter key value).main = c.main ++ [key]) ∧
    (key ∉ c.tags → (c.enter key value).small = c.small ++ [key] ∧
      (c.enter key value).main = c.main) := by
  constructor
  · intro htag
    rw [enter, enqueue, if_pos (Std.TreeMap.contains_iff_mem.mpr htag)]
    exact ⟨rfl, rfl⟩
  · intro htag
    rw [enter, enqueue, if_neg (fun hcontains => htag (Std.TreeMap.contains_iff_mem.mp hcontains))]
    exact ⟨rfl, rfl⟩

/-- A new key goes to the back of the main queue just if it is remembered. -/
theorem Recalls.queues_insert (h : c.Recalls ds) (hnew : key ∉ c.entries) (value : ν) :
    (Remembered c.capacity ((c.leaving key).reverse ++ ds) key →
      (c.insert key value).2.small = c.cleared.small ∧
        (c.insert key value).2.main = c.cleared.main ++ [key]) ∧
    (¬ Remembered c.capacity ((c.leaving key).reverse ++ ds) key →
      (c.insert key value).2.small = c.cleared.small ++ [key] ∧
        (c.insert key value).2.main = c.cleared.main) ∧
    key ∉ c.cleared.small ++ c.cleared.main := by
  obtain ⟨hinsert, hleaving⟩ := insert_of_new hnew value
  obtain ⟨hcleared, -, hcapacity, hentries⟩ := h.cleared
  have hkey : key ∉ c.cleared.entries := fun hmem => hnew (hentries hmem)
  rw [hinsert, hleaving, ← hcapacity, ← hcleared.mem_tags_iff hkey]
  obtain ⟨hmain, hsmall⟩ := queues_enter c.cleared key value
  exact ⟨hmain, hsmall, fun hmem => hkey (hcleared.kept.queued.mem hmem)⟩

end

/-! ## Runs -/

/-- The departures of an operation, the newest first. -/
def lost (c : Cache κ ν) : Op κ ν → List (Departure κ ν)
  | .get _ => []
  | .insert key _ => (c.leaving key).reverse

/-- The departures of some more operations after others, the newest first. -/
def departed (c : Cache κ ν) (ds : List (Departure κ ν)) : List (Op κ ν) → List (Departure κ ν)
  | [] => ds
  | op :: ops => departed (c.after op) (c.lost op ++ ds) ops

variable {c : Cache κ ν} {ds : List (Departure κ ν)}

theorem Recalls.after (h : c.Recalls ds) (op : Op κ ν) : (c.after op).Recalls (c.lost op ++ ds) := by
  cases op with
  | get key => exact h.get key
  | insert key value =>
      show (c.insert key value).2.Recalls ((c.leaving key).reverse ++ ds)
      cases he : c.entries[key]? with
      | some e =>
          rw [Cache.insert, leaving, he]
          have hreads : e.reads ≤ maxReads := h.kept.reads_le he
          exact h.recount (e := { e with value }) (.refl _) (mem_of_getElem? he) hreads c.hits
      | none =>
          have hnew : key ∉ c.entries := fun hkey => by
            obtain ⟨e, he'⟩ := getElem?_of_mem hkey
            rw [he] at he'
            cases he'
          obtain ⟨hinsert, hleaving⟩ := insert_of_new hnew value
          obtain ⟨hcleared, hroom, -, hentries⟩ := h.cleared
          rw [hinsert, hleaving]
          exact hcleared.enter (fun hkey => hnew (hentries hkey)) hroom value

theorem Recalls.foldl (h : c.Recalls ds) (ops : List (Op κ ν)) :
    (ops.foldl Cache.after c).Recalls (departed c ds ops) := by
  induction ops generalizing c ds with
  | nil => exact h
  | cons op ops ih => exact ih (h.after op)

omit [Ord κ] [Std.TransOrd κ] [Std.LawfulEqOrd κ] in
theorem gone_append (log log' : List (Event κ ν)) : gone (log ++ log') = gone log ++ gone log' := by
  induction log with
  | nil => rfl
  | cons event log ih =>
      cases event with
      | inserted key value => exact ih
      | evicted key value => exact congrArg (key :: ·) ih

omit [Ord κ] [Std.TransOrd κ] [Std.LawfulEqOrd κ] in
theorem gone_map_evicted (entries : List (κ × ν)) :
    gone (entries.map fun entry => .evicted entry.1 entry.2) = entries.map Prod.fst := by
  induction entries with
  | nil => rfl
  | cons entry entries ih => exact congrArg (entry.1 :: ·) ih

/-- The keys that leave are those that the callback is told. -/
theorem Kept.gone_told (h : c.Kept) (op : Op κ ν) :
    gone (c.told op) = (c.lost op).map Departure.key := by
  cases op with
  | get key => rfl
  | insert key value =>
      obtain ⟨htold, -⟩ := h.insert_outcome key value
      rw [told, lost, gone, ← List.map_reverse, gone_map_evicted, htold, ← List.map_reverse,
        List.map_map]
      rfl

theorem Kept.gone_history (h : c.Kept) {log : List (Event κ ν)}
    (hlog : gone log = ds.map Departure.key) (ops : List (Op κ ν)) :
    gone (history c log ops) = (departed c ds ops).map Departure.key := by
  induction ops generalizing c ds log with
  | nil => exact hlog
  | cons op ops ih =>
      refine ih (h.after op) ?_
      rw [gone_append, h.gone_told, hlog, List.map_append]

theorem departed_append (c : Cache κ ν) (ds : List (Departure κ ν)) (ops : List (Op κ ν))
    (op : Op κ ν) :
    departed c ds (ops ++ [op]) = (ops.foldl Cache.after c).lost op ++ departed c ds ops := by
  induction ops generalizing c ds with
  | nil => rfl
  | cons first ops ih => exact ih (c.after first) _

/-- A key without an entry is put into the main queue just if its last departure was from the
small queue and fewer than the capacity of others were since, those for which it needs room
itself counted; and else it is put into the small queue.  It comes last in its queue, behind the
keys that are left there.  The departures are those that the callback is told. -/
theorem run_remembers (capacity : Nat) (ops : List (Op κ ν)) (key : κ) (value : ν)
    (hnew : key ∉ (run capacity ops).entries) :
    let entering := ops ++ [.insert key value]
    let ds := departed (ofCapacity capacity) [] entering
    let before := (run capacity ops).cleared
    let c := run capacity entering
    (key ∈ c.main ↔ Remembered (max capacity 1) ds key) ∧
      (key ∈ c.small ↔ ¬ Remembered (max capacity 1) ds key) ∧
      (Remembered (max capacity 1) ds key →
        c.small = before.small ∧ c.main = before.main ++ [key]) ∧
      (¬ Remembered (max capacity 1) ds key →
        c.small = before.small ++ [key] ∧ c.main = before.main) ∧
      ds.map Departure.key = gone (history (ofCapacity capacity) [] entering) := by
  intro entering ds before c
  have hrun : (run capacity ops).Recalls (departed (ofCapacity capacity) [] ops) :=
    (recalls_ofCapacity capacity).foldl ops
  have hc : c = ((run capacity ops).insert key value).2 := List.foldl_append
  have hds : ds = ((run capacity ops).leaving key).reverse ++ departed (ofCapacity capacity) [] ops :=
    departed_append _ _ _ _
  obtain ⟨hmain, hsmall, hqueues⟩ := hrun.queues_insert hnew value
  rw [← hc, ← hds, capacity_run] at hmain hsmall
  rw [List.mem_append, not_or] at hqueues
  have htold : gone (history (ofCapacity capacity) [] entering) = ds.map Departure.key :=
    (kept_ofCapacity capacity).gone_history rfl entering
  refine ⟨⟨?_, ?_⟩, ⟨?_, ?_⟩, hmain, hsmall, htold.symm⟩
  · intro hmem
    by_contra hforgotten
    rw [(hsmall hforgotten).2] at hmem
    exact hqueues.2 hmem
  · intro hremembered
    rw [(hmain hremembered).2]
    exact List.mem_append_right _ List.mem_cons_self
  · intro hmem hremembered
    rw [(hmain hremembered).1] at hmem
    exact hqueues.1 hmem
  · intro hforgotten
    rw [(hsmall hforgotten).1]
    exact List.mem_append_right _ List.mem_cons_self

/-- In a cache for two a key comes back in time, though another one makes room for it.  In a cache
for one that other departure is one too many. -/
theorem run_remembers_returning :
    let returning : Op Nat Nat := .insert 1 11
    let full : List (Op Nat Nat) := [.insert 1 10, .insert 2 20, .insert 3 30]
    let single : List (Op Nat Nat) := [.insert 1 10, .insert 2 20]
    (1 ∈ (run 2 (full ++ [returning])).main ∧
      Remembered 2 (departed (ofCapacity 2) [] (full ++ [returning])) 1) ∧
    1 ∈ (run 1 (single ++ [returning])).small ∧
      ¬ Remembered 1 (departed (ofCapacity 1) [] (single ++ [returning])) 1 := by
  intro returning full single
  have htwo := (run_remembers 2 full 1 11 (by decide +kernel)).1
  have hone := (run_remembers 1 single 1 11 (by decide +kernel)).2.1
  have hmain : 1 ∈ (run 2 (full ++ [returning])).main := by decide +kernel
  have hsmall : 1 ∈ (run 1 (single ++ [returning])).small := by decide +kernel
  exact ⟨⟨hmain, htwo.mp hmain⟩, hsmall, hone.mp hsmall⟩

end

end Cache

end Leaderboard
