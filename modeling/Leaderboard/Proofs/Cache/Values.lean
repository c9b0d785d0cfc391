import Leaderboard.Cache

/-!
# The values of a cache

`Cache.value?` is what a cache has for a key, whatever its queues are.  A read
tells it and changes none.  Evicting takes values away and changes none of those
that are left (`Cache.Below`), so after an insertion the cache has the new value,
and for every other key the value it had or none.

`Cache.All` says that something holds of every key with its value, and what it
takes to hold after a read or an insertion.
-/

namespace Leaderboard

namespace Cache

variable {κ ν : Type} [Ord κ]

/-- The value that some entries have for a key. -/
def valueIn (entries : Std.TreeMap κ (Entry ν)) (key : κ) : Option ν :=
  entries[key]?.map Entry.value

/-- The value that a cache has for a key. -/
def value? (c : Cache κ ν) (key : κ) : Option ν := valueIn c.entries key

/-- The values of some entries are among those of others. -/
def Below (es fs : Std.TreeMap κ (Entry ν)) : Prop :=
  ∀ ⦃key value⦄, valueIn es key = some value → valueIn fs key = some value

theorem Below.refl (es : Std.TreeMap κ (Entry ν)) : Below es es := fun _ _ h => h

theorem Below.trans {es fs gs : Std.TreeMap κ (Entry ν)} (h : Below es fs) (h' : Below fs gs) :
    Below es gs := fun _ _ hvalue => h' (h hvalue)

theorem valueIn_of_some {es : Std.TreeMap κ (Entry ν)} {key : κ} {e : Entry ν}
    (h : es[key]? = some e) : valueIn es key = some e.value := by
  rw [valueIn, h, Option.map_some]

/-- A read tells the value. -/
theorem get_fst (c : Cache κ ν) (key : κ) : (c.get key).1 = c.value? key := by
  rw [get, value?, valueIn]
  cases c.entries[key]? <;> rfl

theorem entries_enqueue (c : Cache κ ν) (key : κ) : (c.enqueue key).entries = c.entries := by
  rw [enqueue]
  split
  · rfl
  · rfl

section

variable [Std.TransOrd κ]

theorem value?_ofCapacity (capacity : Nat) (key : κ) :
    (ofCapacity capacity : Cache κ ν).value? key = none := by
  have hempty : (∅ : Std.TreeMap κ (Entry ν))[key]? = none := Std.TreeMap.getElem?_emptyc
  show valueIn (∅ : Std.TreeMap κ (Entry ν)) key = none
  rw [valueIn, hempty, Option.map_none]

theorem valueIn_insert_self (es : Std.TreeMap κ (Entry ν)) (key : κ) (e : Entry ν) :
    valueIn (es.insert key e) key = some e.value :=
  valueIn_of_some Std.TreeMap.getElem?_insert_self

/-- A cache has a value for the keys that have an entry. -/
theorem value?_eq_none_iff {c : Cache κ ν} {key : κ} : c.value? key = none ↔ key ∉ c.entries := by
  rw [value?, valueIn, Option.map_eq_none_iff, Std.TreeMap.mem_iff_isSome_getElem?,
    Option.not_isSome_iff_eq_none]

theorem valueIn_erase_self (es : Std.TreeMap κ (Entry ν)) (key : κ) :
    valueIn (es.erase key) key = none := by
  rw [valueIn, Std.TreeMap.getElem?_erase_self, Option.map_none]

theorem below_erase (es : Std.TreeMap κ (Entry ν)) (key : κ) : Below (es.erase key) es := by
  intro k value h
  rw [valueIn, Std.TreeMap.getElem?_erase] at h
  split at h
  · cases h
  · exact h

end

variable [Std.TransOrd κ] [Std.LawfulEqOrd κ]

omit [Std.TransOrd κ] in
theorem compare_ne_eq_of_ne {key k : κ} (h : k ≠ key) : compare key k ≠ .eq :=
  fun heq => h (Std.LawfulEqOrd.eq_of_compare heq).symm

theorem getElem?_insert_of_ne {α : Type} (map : Std.TreeMap κ α) {key k : κ} (a : α)
    (h : k ≠ key) : (map.insert key a)[k]? = map[k]? := by
  rw [Std.TreeMap.getElem?_insert, if_neg (compare_ne_eq_of_ne h)]

theorem getElem?_erase_of_ne {α : Type} (map : Std.TreeMap κ α) {key k : κ} (h : k ≠ key) :
    (map.erase key)[k]? = map[k]? := by
  rw [Std.TreeMap.getElem?_erase, if_neg (compare_ne_eq_of_ne h)]

theorem valueIn_insert_of_ne (es : Std.TreeMap κ (Entry ν)) {key k : κ} (e : Entry ν)
    (h : k ≠ key) : valueIn (es.insert key e) k = valueIn es k := by
  rw [valueIn, getElem?_insert_of_ne es e h, valueIn]

theorem valueIn_erase_of_ne (es : Std.TreeMap κ (Entry ν)) {key k : κ} (h : k ≠ key) :
    valueIn (es.erase key) k = valueIn es k := by
  rw [valueIn, getElem?_erase_of_ne es h, valueIn]

/-- Counting the reads of an entry changes no value. -/
theorem valueIn_recount {es : Std.TreeMap κ (Entry ν)} {key : κ} {e : Entry ν}
    (he : es[key]? = some e) (reads : Nat) (k : κ) :
    valueIn (es.insert key { e with reads }) k = valueIn es k := by
  by_cases hk : k = key
  · rw [hk, valueIn_insert_self, valueIn_of_some he]
  · exact valueIn_insert_of_ne es _ hk

theorem below_recount {es : Std.TreeMap κ (Entry ν)} {key : κ} {e : Entry ν}
    (he : es[key]? = some e) (reads : Nat) : Below (es.insert key { e with reads }) es :=
  fun k _ h => (valueIn_recount he reads k).symm.trans h

/-- A read changes no value. -/
theorem value?_get (c : Cache κ ν) (key k : κ) : (c.get key).2.value? k = c.value? k := by
  rw [get]
  cases he : c.entries[key]? with
  | none => rfl
  | some e => exact valueIn_recount he _ k

/-! ## Evicting -/

theorem below_scanSmall (c : Cache κ ν) (queue : List κ) :
    Below (c.scanSmall queue).2.entries c.entries := by
  induction queue generalizing c with
  | nil => exact Below.refl _
  | cons key rest ih =>
      rw [scanSmall]
      split
      · exact ih c
      · rename_i e he
        split
        · exact (ih _).trans (below_recount he 0)
        · exact below_erase c.entries key

theorem below_scanMain (entries : Std.TreeMap κ (Entry ν)) (queue : List κ) :
    Below (scanMain entries queue).2.2 entries := by
  fun_induction scanMain entries queue with
  | case1 entries => exact Below.refl _
  | case2 entries key rest hmissing ih => exact ih
  | case3 entries key rest e he hzero => exact below_erase entries key
  | case4 entries key rest e he hreads hlt ih => exact ih.trans (below_recount he _)

theorem below_evict (c : Cache κ ν) : Below c.evict.2.entries c.entries := by
  rw [evict]
  split
  · exact c.below_scanSmall c.small
  · exact below_scanMain c.entries c.main

theorem below_makeRoom (n : Nat) (c : Cache κ ν) : Below (makeRoom n c).2.entries c.entries := by
  induction n generalizing c with
  | zero => exact Below.refl _
  | succ n ih =>
      rw [makeRoom]
      split
      · exact Below.refl _
      · exact (ih c.evict.2).trans c.below_evict

/-! ## Inserting -/

/-- After an insertion the cache has the new value, -/
theorem value?_insert_self (c : Cache κ ν) (key : κ) (value : ν) :
    (c.insert key value).2.value? key = some value := by
  rw [insert]
  split
  · exact valueIn_insert_self _ _ _
  · exact valueIn_insert_self _ _ _

/-- and for another key a value only if it had that value. -/
theorem value?_of_insert {c : Cache κ ν} {key k : κ} {value v : ν} (hk : k ≠ key)
    (h : (c.insert key value).2.value? k = some v) : c.value? k = some v := by
  rw [insert, value?] at h
  split at h
  · rwa [valueIn_insert_of_ne _ _ hk] at h
  · rw [valueIn_insert_of_ne _ _ hk, entries_enqueue] at h
    exact below_makeRoom _ c h

/-! ## What holds of all values -/

/-- Something holds of every key with its value. -/
def All (c : Cache κ ν) (P : κ → ν → Prop) : Prop :=
  ∀ ⦃key value⦄, c.value? key = some value → P key value

variable {c : Cache κ ν} {P Q : κ → ν → Prop}

omit [Std.LawfulEqOrd κ] in
theorem all_ofCapacity (capacity : Nat) : (ofCapacity capacity : Cache κ ν).All P := by
  intro key value h
  rw [value?_ofCapacity] at h
  cases h

theorem All.get (h : c.All P) (key : κ) : (c.get key).2.All P := by
  intro k value hk
  rw [value?_get] at hk
  exact h hk

/-- What is to hold after an insertion has to hold of the new value, and of the
others if it held before. -/
theorem All.insert (h : c.All P) {key : κ} {value : ν} (hnew : Q key value)
    (hold : ∀ k v, k ≠ key → P k v → Q k v) : (c.insert key value).2.All Q := by
  intro k v hk
  by_cases heq : k = key
  · subst heq
    rw [value?_insert_self] at hk
    cases hk
    exact hnew
  · exact hold k v heq (h (value?_of_insert heq hk))

end Cache

end Leaderboard
