import Leaderboard.Proofs.Cache.Values
import Mathlib.Data.List.Nodup
import Mathlib.Logic.Relation

/-!
# What an eviction does

Evicting looks at one key after the other.  A key whose entry was read stays, in
another place (`Cache.Stays`), and the first other one leaves (`Cache.Leaves`).  The
two scans do nothing else (`evict_outcome`), so that what holds along `Stays` and
`Leaves` holds of every eviction.

The queues of a cache together hold each key that has an entry once
(`Cache.Queued`).  Hence a key that is looked at has an entry, and room for a new
entry is made by exactly one departure, in at most two calls of `evict`
(`MakesRoom`, `makeRoom_of_full`).  `Cache.Inserted` lists what can happen when a key is
given a value.

A loop is given by its turns, and `Cache.Finishes` says which turns it makes until it
stops.  No number is set to them in advance, so a loop that goes on for ever finishes in no
way.  What `makeRoom` gives is what the loop comes to, for any number of calls that it is
allowed, if it is large enough (`makeRoom_of_finishes`).
-/

namespace Leaderboard

namespace Cache

open Relation (ReflTransGen)

/-- A loop goes through some turns and stops.  A turn gives what was done and the state
after it, and where there is none the loop stops. -/
inductive Finishes {σ α : Type} (turn : σ → Option (α × σ)) : σ → List α → σ → Prop
  | stop {s : σ} (h : turn s = none) : Finishes turn s [] s
  | next {s s' t : σ} {a : α} {as : List α} (h : turn s = some (a, s'))
      (hrest : Finishes turn s' as t) : Finishes turn s (a :: as) t

/-- A loop finishes in one way at most. -/
theorem Finishes.unique {σ α : Type} {turn : σ → Option (α × σ)} {s t u : σ} {as bs : List α}
    (h : Finishes turn s as t) (h' : Finishes turn s bs u) : as = bs ∧ t = u := by
  induction h generalizing bs u with
  | stop hstop =>
      cases h' with
      | stop hstop' => exact ⟨rfl, rfl⟩
      | next hturn hrest => cases hstop.symm.trans hturn
  | next hturn hrest ih =>
      cases h' with
      | stop hstop => cases hstop.symm.trans hturn
      | next hturn' hrest' =>
          cases hturn.symm.trans hturn'
          obtain ⟨rfl, rfl⟩ := ih hrest'
          exact ⟨rfl, rfl⟩

/-- The queue that an entry leaves from. -/
inductive Queue where
  | small
  | main
deriving DecidableEq, Repr

/-- An evicted entry, with the queue that it left from. -/
structure Departure (κ ν : Type) where
  /-- The queue. -/
  queue : Queue
  /-- The key. -/
  key : κ
  /-- The value it had. -/
  value : ν

/-- What the eviction callback is told. -/
def Departure.entry {κ ν : Type} (d : Departure κ ν) : κ × ν := (d.key, d.value)

variable {κ ν : Type} [Ord κ]

/-- The key that is looked at stays in the cache. -/
inductive Stays : Cache κ ν → Cache κ ν → Prop
  /-- A key of the small queue that was read more than once moves to the main queue. -/
  | promote {c : Cache κ ν} {key : κ} {rest : List κ} {e : Entry ν}
      (hsmall : c.small = key :: rest) (he : c.entries[key]? = some e) (hreads : 1 < e.reads) :
      Stays c { c with
        small := rest
        main := c.main ++ [key]
        entries := c.entries.insert key { e with reads := 0 } }
  /-- A key of the main queue that was read goes to the back of the queue. -/
  | requeue {c : Cache κ ν} {key : κ} {rest : List κ} {e : Entry ν}
      (hmain : c.main = key :: rest) (he : c.entries[key]? = some e) (hreads : e.reads ≠ 0) :
      Stays c { c with
        main := rest ++ [key]
        entries := c.entries.insert key { e with reads := e.reads - 1 } }

/-- The key that is looked at leaves the cache. -/
inductive Leaves : Cache κ ν → Departure κ ν → Cache κ ν → Prop
  /-- A key of the small queue that was read once at most is remembered. -/
  | small {c : Cache κ ν} {key : κ} {rest : List κ} {e : Entry ν}
      (hsmall : c.small = key :: rest) (he : c.entries[key]? = some e) (hreads : e.reads ≤ 1) :
      Leaves c ⟨.small, key, e.value⟩
        (remember { c with small := rest, entries := c.entries.erase key } key)
  /-- The main queue is left only while the small queue has fewer keys than it is
  meant for. -/
  | main {c : Cache κ ν} {key : κ} {rest : List κ} {e : Entry ν}
      (hroom : c.small.length < c.smallCapacity) (hmain : c.main = key :: rest)
      (he : c.entries[key]? = some e) (hreads : e.reads = 0) :
      Leaves c ⟨.main, key, e.value⟩ { c with main := rest, entries := c.entries.erase key }

/-- Some keys stay and then one leaves. -/
def Evicts (c : Cache κ ν) (d : Departure κ ν) (c' : Cache κ ν) : Prop :=
  ∃ between, ReflTransGen Stays c between ∧ Leaves between d c'

section

variable {c c' : Cache κ ν} {d : Departure κ ν}

/-- What no key that stays changes, no number of them does. -/
theorem stays_induct {P : Cache κ ν → Prop} (hstays : ∀ c c', Stays c c' → P c → P c')
    (h : ReflTransGen Stays c c') (hc : P c) : P c' := by
  induction h with
  | refl => exact hc
  | tail _ hstep ih => exact hstays _ _ hstep ih

theorem Evicts.induct {P : Cache κ ν → Prop} (hstays : ∀ c c', Stays c c' → P c → P c')
    (hleaves : ∀ c d c', Leaves c d c' → P c → P c') (h : Evicts c d c') (hc : P c) : P c' := by
  obtain ⟨between, hmoves, hleave⟩ := h
  exact hleaves between d c' hleave (stays_induct hstays hmoves hc)

theorem Evicts.head {c₁ : Cache κ ν} (hmoves : ReflTransGen Stays c c₁) (h : Evicts c₁ d c') :
    Evicts c d c' := by
  obtain ⟨between, hmoves₁, hleave⟩ := h
  exact ⟨between, hmoves.trans hmoves₁, hleave⟩

/-- The keys that stay have changed places only. -/
theorem Stays.perm (hstays : Stays c c') :
    (c'.small ++ c'.main).Perm (c.small ++ c.main) := by
  cases hstays with
  | @promote key rest e hsmall he hreads =>
      show (rest ++ (c.main ++ [key])).Perm (c.small ++ c.main)
      rw [hsmall, ← List.append_assoc]
      exact List.perm_append_singleton key _
  | @requeue key rest e hmain he hreads =>
      show (c.small ++ (rest ++ [key])).Perm (c.small ++ c.main)
      rw [hmain]
      exact (List.perm_append_singleton key rest).append_left _

/-- The key that leaves is taken from the queues, and the others keep their places. -/
theorem Leaves.perm (hleaves : Leaves c d c') :
    (c.small ++ c.main).Perm (d.key :: (c'.small ++ c'.main)) := by
  cases hleaves with
  | @small key rest e hsmall he hreads =>
      rw [hsmall]
      exact List.Perm.refl _
  | @main key rest e hroom hmain he hreads =>
      rw [hmain]
      exact List.perm_middle

theorem Stays.capacity_eq (h : Stays c c') : c'.capacity = c.capacity := by
  cases h <;> rfl

theorem Leaves.capacity_eq (h : Leaves c d c') : c'.capacity = c.capacity := by
  cases h <;> rfl

theorem capacity_eq_of_stays (h : ReflTransGen Stays c c') : c'.capacity = c.capacity :=
  stays_induct (P := fun between => between.capacity = c.capacity)
    (fun _ _ hstep heq => hstep.capacity_eq.trans heq) h rfl

theorem Evicts.capacity_eq (h : Evicts c d c') : c'.capacity = c.capacity := by
  obtain ⟨between, hmoves, hleave⟩ := h
  exact hleave.capacity_eq.trans (capacity_eq_of_stays hmoves)

end

/-- What a call that looks at the keys of a queue comes to. -/
inductive Outcome (c : Cache κ ν) : Queue → Option (κ × ν) × Cache κ ν → Prop
  /-- All keys of the small queue moved to the main queue. -/
  | drained {c' : Cache κ ν} (h : ReflTransGen Stays c c') (hsmall : c'.small = []) :
      Outcome c .small (none, c')
  /-- An entry was evicted. -/
  | evicted {d : Departure κ ν} {c' : Cache κ ν} (h : Evicts c d c') :
      Outcome c d.queue (some d.entry, c')

theorem Outcome.of_stays {c c₁ : Cache κ ν} {queue : Queue} {r : Option (κ × ν) × Cache κ ν}
    (hstep : Stays c c₁) (h : Outcome c₁ queue r) : Outcome c queue r := by
  cases h with
  | drained hstays hsmall => exact .drained (.head hstep hstays) hsmall
  | evicted hevicts => exact .evicted (hevicts.head (.single hstep))

/-- The queue that `evict` looks at. -/
def source (c : Cache κ ν) : Queue :=
  if c.small.length ≥ c.smallCapacity ∨ c.main = [] then .small else .main

theorem evict_eq [Std.TransOrd κ] [Std.LawfulEqOrd κ] (c : Cache κ ν) :
    c.evict = match c.source with
      | .small => c.evictSmall
      | .main => c.evictMain := by
  rw [evict, source]
  split
  · rfl
  · rfl

/-! ## Maps -/

section

variable [Std.TransOrd κ]

theorem mem_of_getElem? {α : Type} {map : Std.TreeMap κ α} {key : κ} {a : α}
    (h : map[key]? = some a) : key ∈ map := by
  rw [Std.TreeMap.mem_iff_isSome_getElem?, h]
  rfl

theorem getElem?_of_mem {α : Type} {map : Std.TreeMap κ α} {key : κ} (h : key ∈ map) :
    ∃ a, map[key]? = some a :=
  Option.isSome_iff_exists.mp (Std.TreeMap.mem_iff_isSome_getElem?.mp h)

/-- Giving a key that is there another value adds no key. -/
theorem mem_of_mem_insert [Std.LawfulEqOrd κ] {α : Type} {map : Std.TreeMap κ α} {key k : κ}
    {a : α} (hkey : key ∈ map) (h : k ∈ map.insert key a) : k ∈ map := by
  obtain heq | hk := Std.TreeMap.mem_insert.mp h
  · rwa [← Std.LawfulEqOrd.eq_of_compare heq]
  · exact hk

theorem mem_insert_iff_of_ne [Std.LawfulEqOrd κ] {α : Type} {map : Std.TreeMap κ α} {key k : κ}
    {a : α} (h : k ≠ key) : k ∈ map.insert key a ↔ k ∈ map :=
  Std.TreeMap.mem_insert.trans (or_iff_right (compare_ne_eq_of_ne h))

theorem mem_erase_iff_of_ne [Std.LawfulEqOrd κ] {α : Type} {map : Std.TreeMap κ α} {key k : κ}
    (h : k ≠ key) : k ∈ map.erase key ↔ k ∈ map :=
  Std.TreeMap.mem_erase.trans (and_iff_right (compare_ne_eq_of_ne h))

theorem getElem?_of_insert [Std.LawfulEqOrd κ] {α : Type} {map : Std.TreeMap κ α} {key k : κ}
    {a b : α} (h : (map.insert key a)[k]? = some b) :
    k = key ∧ b = a ∨ k ≠ key ∧ map[k]? = some b := by
  rw [Std.TreeMap.getElem?_insert] at h
  split at h
  · rename_i heq
    exact .inl ⟨(Std.LawfulEqOrd.eq_of_compare heq).symm, (Option.some.inj h).symm⟩
  · rename_i hne
    exact .inr ⟨fun heq => hne (heq ▸ Std.ReflCmp.compare_self), h⟩

theorem getElem?_of_erase {α : Type} {map : Std.TreeMap κ α} {key k : κ} {b : α}
    (h : (map.erase key)[k]? = some b) : k ≠ key ∧ map[k]? = some b := by
  rw [Std.TreeMap.getElem?_erase] at h
  split at h
  · cases h
  · rename_i hne
    exact ⟨fun heq => hne (heq ▸ Std.ReflCmp.compare_self), h⟩

/-! ## The scans -/

/-- Each promotion is a key that stays, and the induction goes on with the cache after
it. -/
theorem scanSmall_outcome {c : Cache κ ν} {queue : List κ}
    (hqueue : ∀ key ∈ queue, key ∈ c.entries) :
    Outcome { c with small := queue } .small (c.scanSmall queue) := by
  induction queue generalizing c with
  | nil => exact .drained .refl rfl
  | cons key rest ih =>
      obtain ⟨e, he⟩ := getElem?_of_mem (hqueue key List.mem_cons_self)
      rw [scanSmall, he]
      dsimp only
      by_cases hreads : e.reads > 1
      · rw [if_pos hreads]
        have hrest : ∀ k ∈ rest, k ∈ c.entries.insert key { e with reads := 0 } := fun k hk =>
          Std.TreeMap.mem_insert.mpr (.inr (hqueue k (List.mem_cons_of_mem key hk)))
        exact (ih (c := { c with
          entries := c.entries.insert key { e with reads := 0 }
          main := c.main ++ [key] }) hrest).of_stays (.promote rfl he hreads)
      · rw [if_neg hreads]
        have hleaves := Leaves.small (c := { c with small := key :: rest }) rfl he
          (Nat.le_of_not_gt hreads)
        exact .evicted ⟨_, .refl, hleaves⟩

/-- Without a missing key the scan does not run out of the queue: it ends with a key that
was not read. -/
theorem scanMain_outcome [Std.LawfulEqOrd κ] {c : Cache κ ν}
    (hroom : c.small.length < c.smallCapacity) {entries : Std.TreeMap κ (Entry ν)}
    {queue : List κ} (hne : queue ≠ []) (hqueue : ∀ key ∈ queue, key ∈ entries) :
    Outcome { c with main := queue, entries } .main
      ((scanMain entries queue).1,
        { c with main := (scanMain entries queue).2.1
                 entries := (scanMain entries queue).2.2 }) := by
  fun_induction scanMain entries queue with
  | case1 entries => exact absurd rfl hne
  | case2 entries key rest hmissing ih =>
      obtain ⟨e, he⟩ := getElem?_of_mem (hqueue key List.mem_cons_self)
      rw [hmissing] at he
      cases he
  | case3 entries key rest e he hzero =>
      have hleaves := Leaves.main (c := { c with main := key :: rest, entries }) hroom rfl he hzero
      exact .evicted ⟨_, .refl, hleaves⟩
  | case4 entries key rest e he hreads hlt ih =>
      refine (ih (List.append_ne_nil_of_right_ne_nil _ (List.cons_ne_nil _ _)) ?_).of_stays
        (.requeue rfl he hreads)
      intro k hk
      have hk : k ∈ key :: rest := by
        rw [List.mem_append, List.mem_singleton] at hk
        rw [List.mem_cons]
        exact hk.symm
      exact Std.TreeMap.mem_insert.mpr (.inr (hqueue k hk))

end

variable [Std.TransOrd κ] [Std.LawfulEqOrd κ]

/-! ## The keys that have entries -/

section

variable {entries : Std.TreeMap κ (Entry ν)} {key : κ}

/-- A key that has an entry may get another one. -/
theorem keys_insert_perm (h : key ∈ entries) (e : Entry ν) :
    entries.keys.Perm (entries.insert key e).keys := by
  rw [List.perm_ext_iff_of_nodup Std.TreeMap.nodup_keys Std.TreeMap.nodup_keys]
  intro k
  rw [Std.TreeMap.mem_keys, Std.TreeMap.mem_keys, Std.TreeMap.mem_insert,
    Std.LawfulEqOrd.compare_eq_iff_eq]
  exact ⟨.inr, fun hk => hk.elim (fun heq => heq ▸ h) id⟩

theorem cons_keys_perm_insert (h : key ∉ entries) (e : Entry ν) :
    (key :: entries.keys).Perm (entries.insert key e).keys := by
  have hnodup : (key :: entries.keys).Nodup :=
    List.nodup_cons.mpr ⟨fun hk => h (Std.TreeMap.mem_keys.mp hk), Std.TreeMap.nodup_keys⟩
  rw [List.perm_ext_iff_of_nodup hnodup Std.TreeMap.nodup_keys]
  intro k
  rw [List.mem_cons, Std.TreeMap.mem_keys, Std.TreeMap.mem_keys, Std.TreeMap.mem_insert,
    Std.LawfulEqOrd.compare_eq_iff_eq, eq_comm]

theorem keys_perm_cons_erase (h : key ∈ entries) :
    entries.keys.Perm (key :: (entries.erase key).keys) := by
  have hnot : key ∉ (entries.erase key).keys := by
    rw [Std.TreeMap.mem_keys, Std.TreeMap.mem_erase]
    exact fun hk => hk.1 Std.ReflCmp.compare_self
  rw [List.perm_ext_iff_of_nodup Std.TreeMap.nodup_keys
    (List.nodup_cons.mpr ⟨hnot, Std.TreeMap.nodup_keys⟩)]
  intro k
  rw [List.mem_cons, Std.TreeMap.mem_keys, Std.TreeMap.mem_keys, Std.TreeMap.mem_erase,
    ne_eq, Std.LawfulEqOrd.compare_eq_iff_eq]
  constructor
  · intro hk
    exact or_iff_not_imp_left.mpr fun hne => ⟨fun heq => hne heq.symm, hk⟩
  · rintro (rfl | ⟨-, hk⟩)
    · exact h
    · exact hk

end

section

variable {c c' : Cache κ ν} {d : Departure κ ν}

theorem Stays.keys_perm (h : Stays c c') : c.entries.keys.Perm c'.entries.keys := by
  cases h with
  | promote hsmall he hreads => exact keys_insert_perm (mem_of_getElem? he) _
  | requeue hmain he hreads => exact keys_insert_perm (mem_of_getElem? he) _

theorem Leaves.keys_perm (h : Leaves c d c') :
    c.entries.keys.Perm (d.key :: c'.entries.keys) := by
  cases h with
  | small hsmall he hreads => exact keys_perm_cons_erase (mem_of_getElem? he)
  | main hroom hmain he hreads => exact keys_perm_cons_erase (mem_of_getElem? he)

theorem keys_perm_of_stays (h : ReflTransGen Stays c c') :
    c.entries.keys.Perm c'.entries.keys :=
  stays_induct (P := fun between => c.entries.keys.Perm between.entries.keys)
    (fun _ _ hstep hperm => hperm.trans hstep.keys_perm) h (.refl _)

theorem Evicts.keys_perm (h : Evicts c d c') :
    c.entries.keys.Perm (d.key :: c'.entries.keys) := by
  obtain ⟨between, hmoves, hleave⟩ := h
  exact (keys_perm_of_stays hmoves).trans hleave.keys_perm

omit [Std.LawfulEqOrd κ] in
theorem size_eq_of_perm (h : c.entries.keys.Perm c'.entries.keys) : c'.size = c.size := by
  rw [size, size, ← Std.TreeMap.length_keys, ← Std.TreeMap.length_keys, h.length_eq]

omit [Std.LawfulEqOrd κ] in
theorem size_of_keys_perm {key : κ} (h : c.entries.keys.Perm (key :: c'.entries.keys)) :
    c'.size + 1 = c.size := by
  rw [size, size, ← Std.TreeMap.length_keys, ← Std.TreeMap.length_keys, h.length_eq,
    List.length_cons]

theorem Evicts.size_eq (h : Evicts c d c') : c'.size + 1 = c.size := size_of_keys_perm h.keys_perm

/-- An eviction from a full cache makes room. -/
theorem Evicts.size_lt (h : Evicts c d c') (hfull : c.size = c.capacity) :
    c'.size < c'.capacity := by
  rw [h.capacity_eq, ← hfull, ← h.size_eq]
  exact Nat.lt_succ_self _

theorem Evicts.mem (h : Evicts c d c') {key : κ} (hkey : key ∈ c'.entries) : key ∈ c.entries :=
  Std.TreeMap.mem_keys.mp
    (h.keys_perm.mem_iff.mpr (List.mem_cons_of_mem d.key (Std.TreeMap.mem_keys.mpr hkey)))

end

/-! ## The queues together -/

/-- The queues hold each key that has an entry once, and no other key. -/
def Queued (c : Cache κ ν) : Prop := (c.small ++ c.main).Perm c.entries.keys

namespace Queued

variable {c c' : Cache κ ν}

omit [Std.LawfulEqOrd κ] in
theorem size_eq (h : c.Queued) : c.size = c.small.length + c.main.length := by
  rw [size, ← Std.TreeMap.length_keys, ← h.length_eq, List.length_append]

theorem mem (h : c.Queued) {key : κ} (hkey : key ∈ c.small ++ c.main) : key ∈ c.entries :=
  Std.TreeMap.mem_keys.mp (h.subset hkey)

theorem of_stays (h : c.Queued) (hstays : Stays c c') : c'.Queued :=
  hstays.perm.trans (h.trans hstays.keys_perm)

theorem of_moves (h : c.Queued) (hmoves : ReflTransGen Stays c c') : c'.Queued :=
  stays_induct (fun _ _ hstays hc => hc.of_stays hstays) hmoves h

theorem of_leaves {d : Departure κ ν} (h : c.Queued) (hleaves : Leaves c d c') : c'.Queued :=
  (hleaves.perm.symm.trans (h.trans hleaves.keys_perm)).cons_inv

end Queued

/-! ## Making room -/

section

variable {c c' : Cache κ ν} {d : Departure κ ν}

theorem evict_outcome (h : c.Queued) : Outcome c c.source c.evict := by
  rw [evict, source]
  by_cases hsource : c.small.length ≥ c.smallCapacity ∨ c.main = []
  · rw [if_pos hsource, if_pos hsource]
    exact scanSmall_outcome fun key hkey => h.mem (List.mem_append_left _ hkey)
  · rw [if_neg hsource, if_neg hsource]
    rw [not_or] at hsource
    exact scanMain_outcome (Nat.lt_of_not_ge hsource.1) hsource.2
      fun key hkey => h.mem (List.mem_append_right _ hkey)

/-- A call that looks at the main queue evicts an entry. -/
theorem evict_of_main (h : c.Queued) (hsource : c.source = .main) :
    ∃ d c', d.queue = .main ∧ Evicts c d c' ∧ c.evict = (some d.entry, c') := by
  have hcall := evict_outcome h
  rw [hsource] at hcall
  generalize hqueue : Queue.main = queue at hcall
  generalize c.evict = result at hcall
  cases hcall with
  | drained hstays hsmall => cases hqueue
  | @evicted d c' hevicts => exact ⟨d, c', rfl, hevicts, rfl⟩

omit [Std.TransOrd κ] [Std.LawfulEqOrd κ] in
theorem smallCapacity_pos (c : Cache κ ν) : 0 < c.smallCapacity :=
  Nat.lt_of_lt_of_le Nat.zero_lt_one (Nat.le_max_right _ _)

omit [Std.TransOrd κ] [Std.LawfulEqOrd κ] in
/-- Once the small queue is empty it is the main queue that is looked at. -/
theorem source_of_drained (hsmall : c.small = []) (hmain : c.main ≠ []) : c.source = .main := by
  have hpos := c.smallCapacity_pos
  rw [source, hsmall, List.length_nil, if_neg (not_or.mpr ⟨by omega, hmain⟩)]

omit [Std.TransOrd κ] [Std.LawfulEqOrd κ] in
theorem small_pos_of_source (hsource : c.source = .small)
    (hkeys : 0 < c.small.length + c.main.length) : 0 < c.small.length := by
  have hpos := c.smallCapacity_pos
  rw [source] at hsource
  split at hsource
  · rename_i hcase
    obtain hlarge | hmain := hcase
    · omega
    · rwa [hmain, List.length_nil, Nat.add_zero] at hkeys
  · cases hsource

/-- After a call that only moved the keys of the small queue, the next one evicts an entry. -/
theorem evict_of_drained (hqueued : c.Queued) (hsize : 0 < c.size)
    (hmoves : ReflTransGen Stays c c') (hsmall : c'.small = []) :
    ∃ d c'', c'.source = d.queue ∧ Evicts c' d c'' ∧ c'.evict = (some d.entry, c'') := by
  have hqueued' := hqueued.of_moves hmoves
  have hmain : c'.main ≠ [] := by
    intro hmain
    have hempty := hqueued'.size_eq
    rw [hsmall, hmain, size_eq_of_perm (keys_perm_of_stays hmoves), List.length_nil] at hempty
    omega
  have hsource := source_of_drained hsmall hmain
  obtain ⟨d, c'', hqueue, hevicts, hevict⟩ := evict_of_main hqueued' hsource
  exact ⟨d, c'', hsource.trans hqueue.symm, hevicts, hevict⟩

/-- The evictions that make room for one more entry, `n` calls at most. -/
def departures : Nat → Cache κ ν → List (Departure κ ν)
  | 0, _ => []
  | n + 1, c =>
      if c.size < c.capacity then []
      else (c.evict.1.map fun entry => ⟨c.source, entry.1, entry.2⟩).toList ++
        departures n c.evict.2

theorem makeRoom_of_room (n : Nat) (hroom : c.size < c.capacity) :
    makeRoom n c = ([], c) ∧ departures n c = [] := by
  cases n with
  | zero => exact ⟨rfl, rfl⟩
  | succ n => rw [makeRoom, departures, if_pos hroom, if_pos hroom]; exact ⟨rfl, rfl⟩

/-- A turn of the loop that makes room: a call of `evict`, given by the cache that it is
made in. -/
def turnRoom (c : Cache κ ν) : Option (Cache κ ν × Cache κ ν) :=
  if c.size < c.capacity then none else some (c, c.evict.2)

theorem turnRoom_of_full (hfull : c.size = c.capacity) : turnRoom c = some (c, c.evict.2) :=
  if_neg (by omega)

theorem finishes_of_room (hroom : c.size < c.capacity) : Finishes turnRoom c [] c :=
  .stop (if_pos hroom)

/-- It does not matter how many calls are allowed, once the loop gets by with them. -/
theorem makeRoom_of_finishes {calls : List (Cache κ ν)} (h : Finishes turnRoom c calls c')
    {n : Nat} (hn : calls.length ≤ n) :
    makeRoom n c = (calls.flatMap fun call => call.evict.1.toList, c') ∧
      departures n c = calls.flatMap fun call =>
        (call.evict.1.map fun entry => ⟨call.source, entry.1, entry.2⟩).toList := by
  induction h generalizing n with
  | @stop c hstop =>
      rw [turnRoom] at hstop
      split at hstop
      · rename_i hroom
        exact makeRoom_of_room n hroom
      · cases hstop
  | @next c c₁ c' call calls hturn hrest ih =>
      rw [turnRoom] at hturn
      split at hturn
      · cases hturn
      · rename_i hfull
        cases hturn
        obtain ⟨m, rfl⟩ := Nat.exists_eq_add_one.mpr (Nat.zero_lt_of_lt hn)
        obtain ⟨hmake, hdepart⟩ := ih (Nat.le_of_succ_le_succ hn)
        rw [makeRoom, departures, if_neg hfull, if_neg hfull, List.flatMap_cons,
          List.flatMap_cons]
        dsimp only
        rw [hmake, hdepart]
        exact ⟨rfl, rfl⟩

/-- The caches that `evict` is called in while a full cache makes room, up to the call
that evicts an entry. -/
inductive MakesRoom (c : Cache κ ν) (d : Departure κ ν) (c' : Cache κ ν) :
    List (Cache κ ν) → Prop
  /-- The first call evicts an entry. -/
  | once (hsource : c.source = d.queue) (hevict : c.evict = (some d.entry, c'))
      (h : Evicts c d c') : MakesRoom c d c' [c]
  /-- The first call moves all keys of the small queue to the main queue, and the second
  one evicts an entry. -/
  | twice {c₁ : Cache κ ν} (hsmall : 0 < c.small.length) (hdrained : c.evict = (none, c₁))
      (hmoves : ReflTransGen Stays c c₁) (hsource : c₁.source = d.queue)
      (hevict : c₁.evict = (some d.entry, c')) (h : Evicts c₁ d c') : MakesRoom c d c' [c, c₁]

theorem makesRoom_of_full (hqueued : c.Queued) (hpos : 0 < c.capacity)
    (hfull : c.size = c.capacity) : ∃ d c' calls, MakesRoom c d c' calls := by
  have hsize := hqueued.size_eq
  have hcall := evict_outcome hqueued
  generalize hsource : c.source = queue at hcall
  generalize hevict : c.evict = result at hcall
  cases hcall with
  | @evicted d c' h => exact ⟨d, c', _, .once hsource hevict h⟩
  | @drained c₁ hmoves hsmall =>
      obtain ⟨d, c', hsource₁, h, hevict₁⟩ := evict_of_drained hqueued (by omega) hmoves hsmall
      have hsmall_pos := small_pos_of_source hsource (by omega)
      exact ⟨d, c', _, .twice hsmall_pos hevict hmoves hsource₁ hevict₁ h⟩

namespace MakesRoom

variable {calls : List (Cache κ ν)}

theorem length_le (h : MakesRoom c d c' calls) : calls.length ≤ 2 := by
  cases h with
  | once hsource hevict h => exact Nat.le_succ 1
  | twice hsmall hdrained hmoves hsource hevict h => exact Nat.le_refl 2

/-- A key of the small queue counts for two calls. -/
theorem length_le_patience (h : MakesRoom c d c' calls) (hqueued : c.Queued)
    (hsize : 0 < c.size) : calls.length ≤ c.patience := by
  have hkeys := hqueued.size_eq
  rw [patience]
  cases h with
  | once hsource hevict h =>
      rw [List.length_singleton]
      omega
  | twice hsmall hdrained hmoves hsource hevict h =>
      rw [List.length_cons, List.length_singleton]
      omega

theorem finishes (h : MakesRoom c d c' calls) (hfull : c.size = c.capacity) :
    Finishes turnRoom c calls c' := by
  have hturn := turnRoom_of_full hfull
  cases h with
  | once hsource hevict h =>
      rw [hevict] at hturn
      exact .next hturn (finishes_of_room (h.size_lt hfull))
  | @twice c₁ hsmall hdrained hmoves hsource hevict h =>
      -- The cache is still full after a call that evicts nothing.
      have hfull₁ : c₁.size = c₁.capacity := by
        rw [size_eq_of_perm (keys_perm_of_stays hmoves), capacity_eq_of_stays hmoves, hfull]
      have hturn₁ := turnRoom_of_full hfull₁
      rw [hdrained] at hturn
      rw [hevict] at hturn₁
      exact .next hturn (.next hturn₁ (finishes_of_room (h.size_lt hfull₁)))

end MakesRoom

/-- A full cache makes room by one eviction, after at most one call that only moves
keys to the main queue. -/
theorem makeRoom_of_full (hqueued : c.Queued) (hpos : 0 < c.capacity)
    (hfull : c.size = c.capacity) :
    ∃ d c', Evicts c d c' ∧
      makeRoom c.patience c = ([d.entry], c') ∧ departures c.patience c = [d] := by
  obtain ⟨d, c', calls, hmakes⟩ := makesRoom_of_full hqueued hpos hfull
  obtain ⟨hmake, hdepart⟩ := makeRoom_of_finishes (hmakes.finishes hfull)
    (hmakes.length_le_patience hqueued (hfull.symm ▸ hpos))
  rw [hmake, hdepart]
  cases hmakes with
  | once hsource hevict h =>
      refine ⟨d, c', h, ?_⟩
      simp [hevict, hsource, Departure.entry]
  | twice hsmall hdrained hmoves hsource hevict h =>
      refine ⟨d, c', h.head hmoves, ?_⟩
      simp [hdrained, hevict, hsource, Departure.entry]

end

/-! ## Insertions -/

/-- A new entry is put into its queue. -/
def enter (c : Cache κ ν) (key : κ) (value : ν) : Cache κ ν :=
  { c.enqueue key with entries := (c.enqueue key).entries.insert key { value } }

/-- What can happen when a key is given a value: the evictions and the cache after
it. -/
inductive Inserted (c : Cache κ ν) (key : κ) (value : ν) :
    List (Departure κ ν) → Cache κ ν → Prop
  /-- The key has an entry, which keeps its place and its reads. -/
  | replaced {e : Entry ν} (he : c.entries[key]? = some e) :
      Inserted c key value [] { c with entries := c.entries.insert key { e with value } }
  /-- There is room. -/
  | entered (hnew : key ∉ c.entries) (hroom : c.size < c.capacity) :
      Inserted c key value [] (c.enter key value)
  /-- Another entry has to leave. -/
  | evicting {d : Departure κ ν} {c' : Cache κ ν} (hnew : key ∉ c.entries)
      (hfull : c.size = c.capacity) (h : Evicts c d c') :
      Inserted c key value [d] (c'.enter key value)

/-- The evictions of an insertion. -/
def leaving (c : Cache κ ν) (key : κ) : List (Departure κ ν) :=
  match c.entries[key]? with
  | some _ => []
  | none => departures c.patience c

theorem insert_outcome {c : Cache κ ν} (hqueued : c.Queued) (hpos : 0 < c.capacity)
    (hle : c.size ≤ c.capacity) (key : κ) (value : ν) :
    (c.insert key value).1 = (c.leaving key).map Departure.entry ∧
      Inserted c key value (c.leaving key) (c.insert key value).2 := by
  rw [insert, leaving]
  cases he : c.entries[key]? with
  | some e => exact ⟨rfl, .replaced he⟩
  | none =>
      have hnew : key ∉ c.entries := by
        rw [Std.TreeMap.mem_iff_isSome_getElem?, he]
        exact Bool.false_ne_true
      dsimp only
      obtain hroom | hfull := Nat.lt_or_eq_of_le hle
      · obtain ⟨hmake, hdepart⟩ := makeRoom_of_room c.patience hroom
        rw [hmake, hdepart]
        exact ⟨rfl, .entered hnew hroom⟩
      · obtain ⟨d, c', hevicts, hmake, hdepart⟩ := makeRoom_of_full hqueued hpos hfull
        rw [hmake, hdepart]
        exact ⟨rfl, .evicting hnew hfull hevicts⟩

end Cache

end Leaderboard
