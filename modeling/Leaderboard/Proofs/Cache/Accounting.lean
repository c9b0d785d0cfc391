import Leaderboard.Proofs.Cache.Invariant

/-!
# What becomes of the entries of a cache

The log of a cache has an event for every insertion and for every call of the
eviction callback (`Cache.history`), the newest first.  From the log alone one knows
the value that a key has (`current`), the residencies that were begun (`begun`), and
those that were ended (`gone`).

An eviction takes one key with its value away and no other (`Evicts.value?_self`,
`Evicts.value?_gone`, `Evicts.value?_of_ne`), so that the log and the cache stay in
step (`Accounted`).  Nothing is lost and nothing is there twice: this is
`run_accounted`.
-/

namespace Leaderboard

namespace Cache

open Relation (ReflTransGen)

variable {κ ν : Type} [Ord κ]

/-! ## What an eviction takes away -/

section

variable {c c' : Cache κ ν} {d : Departure κ ν}

theorem Leaves.value?_self (h : Leaves c d c') : c.value? d.key = some d.value := by
  cases h with
  | small hsmall he hreads => exact valueIn_of_some he
  | main hroom hmain he hreads => exact valueIn_of_some he

theorem value?_enter_self [Std.TransOrd κ] (c : Cache κ ν) (key : κ) (value : ν) :
    (c.enter key value).value? key = some value :=
  valueIn_insert_self _ _ _

variable [Std.TransOrd κ] [Std.LawfulEqOrd κ]

theorem Stays.value?_eq (h : Stays c c') (key : κ) : c'.value? key = c.value? key := by
  cases h with
  | promote hsmall he hreads => exact valueIn_recount he _ key
  | requeue hmain he hreads => exact valueIn_recount he _ key

omit [Std.LawfulEqOrd κ] in
theorem Leaves.value?_gone (h : Leaves c d c') : c'.value? d.key = none := by
  cases h with
  | small hsmall he hreads => exact valueIn_erase_self _ _
  | main hroom hmain he hreads => exact valueIn_erase_self _ _

theorem Leaves.value?_of_ne (h : Leaves c d c') {key : κ} (hkey : key ≠ d.key) :
    c'.value? key = c.value? key := by
  cases h with
  | small hsmall he hreads => exact valueIn_erase_of_ne _ hkey
  | main hroom hmain he hreads => exact valueIn_erase_of_ne _ hkey

theorem value?_eq_of_stays (h : ReflTransGen Stays c c') (key : κ) :
    c'.value? key = c.value? key :=
  stays_induct (P := fun between => between.value? key = c.value? key)
    (fun _ _ hstep heq => (hstep.value?_eq key).trans heq) h rfl

theorem Evicts.value?_self (h : Evicts c d c') : c.value? d.key = some d.value := by
  obtain ⟨between, hmoves, hleave⟩ := h
  rw [← value?_eq_of_stays hmoves]
  exact hleave.value?_self

omit [Std.LawfulEqOrd κ] in
theorem Evicts.value?_gone (h : Evicts c d c') : c'.value? d.key = none := by
  obtain ⟨between, hmoves, hleave⟩ := h
  exact hleave.value?_gone

theorem Evicts.value?_of_ne (h : Evicts c d c') {key : κ} (hkey : key ≠ d.key) :
    c'.value? key = c.value? key := by
  obtain ⟨between, hmoves, hleave⟩ := h
  exact (hleave.value?_of_ne hkey).trans (value?_eq_of_stays hmoves key)

theorem value?_enter_of_ne (c : Cache κ ν) {key k : κ} (value : ν) (hk : k ≠ key) :
    (c.enter key value).value? k = c.value? k := by
  refine (valueIn_insert_of_ne _ _ hk).trans ?_
  rw [entries_enqueue, value?]

end

/-! ## The log -/

/-- What is entered into the log. -/
inductive Event (κ ν : Type) where
  /-- A key was given a value. -/
  | inserted (key : κ) (value : ν)
  /-- The callback was told that an entry was evicted. -/
  | evicted (key : κ) (value : ν)
deriving DecidableEq, Repr

/-- The value that a key was given last, unless it was evicted since. -/
def current [DecidableEq κ] : List (Event κ ν) → κ → Option ν
  | [], _ => none
  | .inserted k value :: older, key => if key = k then some value else current older key
  | .evicted k _ :: older, key => if key = k then none else current older key

/-- The keys that were given a value while they had none, once each time. -/
def begun [DecidableEq κ] : List (Event κ ν) → List κ
  | [] => []
  | .inserted key _ :: older =>
      match current older key with
      | some _ => begun older
      | none => key :: begun older
  | .evicted _ _ :: older => begun older

/-- The keys that the callback was told, once for each call. -/
def gone : List (Event κ ν) → List κ
  | [] => []
  | .inserted _ _ :: older => gone older
  | .evicted key _ :: older => key :: gone older

section

variable [Std.TransOrd κ] [Std.LawfulEqOrd κ]

/-- What is entered for an operation, the newest first. -/
def told (c : Cache κ ν) : Op κ ν → List (Event κ ν)
  | .get _ => []
  | .insert key value =>
      .inserted key value ::
        ((c.insert key value).1.map fun entry => .evicted entry.1 entry.2).reverse

/-- The log after some more operations. -/
def history (c : Cache κ ν) (log : List (Event κ ν)) : List (Op κ ν) → List (Event κ ν)
  | [] => log
  | op :: ops => history (c.after op) (c.told op ++ log) ops

/-- The evictions of an insertion are none, or one if a new key meets a full cache. -/
theorem Kept.length_evicted {c : Cache κ ν} (h : c.Kept) (key : κ) (value : ν) :
    (c.insert key value).1.length =
      if (c.get key).1 = none ∧ c.size = c.capacity then 1 else 0 := by
  obtain ⟨htold, hinserted⟩ := h.insert_outcome key value
  rw [htold, get_fst, List.length_map]
  generalize c.leaving key = ds at hinserted
  generalize (c.insert key value).2 = c' at hinserted
  cases hinserted with
  | replaced he =>
      rw [if_neg]
      · rfl
      · exact fun hcase => value?_eq_none_iff.mp hcase.1 (mem_of_getElem? he)
  | entered hnew hroom =>
      rw [if_neg]
      · rfl
      · exact fun hcase => Nat.ne_of_lt hroom hcase.2
  | evicting hnew hfull hevicts =>
      rw [if_pos ⟨value?_eq_none_iff.mpr hnew, hfull⟩]
      rfl

variable [DecidableEq κ]

/-- The log and the cache are in step. -/
structure Accounted (c : Cache κ ν) (log : List (Event κ ν)) : Prop where
  kept : c.Kept
  current_eq : ∀ key, c.value? key = current log key
  latest : ∀ ⦃newer key value older⦄, log = newer ++ .evicted key value :: older →
    current older key = some value
  residencies : (begun log).Perm (gone log ++ c.entries.keys)

omit [Std.LawfulEqOrd κ] in
theorem accounted_ofCapacity (capacity : Nat) : (ofCapacity capacity : Cache κ ν).Accounted [] where
  kept := kept_ofCapacity capacity
  current_eq := value?_ofCapacity capacity
  latest := fun newer _ _ _ h => absurd h.symm (List.append_ne_nil_of_right_ne_nil newer nofun)
  residencies := .refl _

namespace Accounted

variable {c c' : Cache κ ν} {log : List (Event κ ν)} {key : κ} {value : ν} {d : Departure κ ν}

omit [Std.TransOrd κ] [Std.LawfulEqOrd κ] in
/-- An event is about one key. -/
theorem current_cons (h : c.Accounted log) {o : Option ν} (hself : c'.value? key = o)
    (hother : ∀ k, k ≠ key → c'.value? k = c.value? k) (k : κ) :
    c'.value? k = if k = key then o else current log k := by
  by_cases hk : k = key
  · rw [if_pos hk, hk, hself]
  · rw [if_neg hk, hother k hk, h.current_eq]

omit [Std.TransOrd κ] [Std.LawfulEqOrd κ] in
/-- An insertion says nothing new about the evictions before it. -/
theorem latest_inserted (h : c.Accounted log) ⦃newer : List (Event κ ν)⦄ ⦃k : κ⦄ ⦃v : ν⦄
    ⦃older : List (Event κ ν)⦄
    (hlog : .inserted key value :: log = newer ++ .evicted k v :: older) :
    current older k = some v := by
  obtain ⟨-, hlog⟩ | ⟨newer, -, hlog⟩ := List.cons_eq_append_iff.mp hlog
  · cases hlog
  · exact h.latest hlog

theorem evict (h : c.Accounted log) (hevicts : Evicts c d c') :
    c'.Accounted (.evicted d.key d.value :: log) where
  kept := h.kept.of_evicts hevicts
  current_eq := h.current_cons hevicts.value?_gone fun _ hk => hevicts.value?_of_ne hk
  latest := by
    intro newer k v older hlog
    obtain ⟨-, hlog⟩ | ⟨newer, -, hlog⟩ := List.cons_eq_append_iff.mp hlog
    · cases hlog
      rw [← h.current_eq]
      exact hevicts.value?_self
    · exact h.latest hlog
  residencies := by
    have hperm := h.residencies.trans (hevicts.keys_perm.append_left (gone log))
    exact hperm.trans List.perm_middle

theorem enter (h : c.Accounted log) (hnew : key ∉ c.entries) (hroom : c.size < c.capacity)
    (value : ν) : (c.enter key value).Accounted (.inserted key value :: log) where
  kept := h.kept.enter hnew hroom value
  current_eq := h.current_cons (value?_enter_self c key value)
    fun _ hk => value?_enter_of_ne c value hk
  latest := h.latest_inserted
  residencies := by
    have hnone : current log key = none :=
      (h.current_eq key).symm.trans (value?_eq_none_iff.mpr hnew)
    have hkeys : (key :: c.entries.keys).Perm (c.enter key value).entries.keys := by
      show (key :: c.entries.keys).Perm ((c.enqueue key).entries.insert key _).keys
      rw [entries_enqueue]
      exact cons_keys_perm_insert hnew _
    rw [begun, hnone]
    exact (h.residencies.cons key).trans (List.perm_middle.symm.trans (hkeys.append_left _))

theorem replace (h : c.Accounted log) {e : Entry ν} (he : c.entries[key]? = some e) (value : ν) :
    Accounted { c with entries := c.entries.insert key { e with value } }
      (.inserted key value :: log) where
  kept := h.kept.inserted (.replaced he)
  current_eq := h.current_cons (valueIn_insert_self _ _ _) fun _ hk => valueIn_insert_of_ne _ _ hk
  latest := h.latest_inserted
  residencies := by
    have hsome : current log key = some e.value :=
      (h.current_eq key).symm.trans (valueIn_of_some he)
    rw [begun, hsome]
    exact h.residencies.trans ((keys_insert_perm (mem_of_getElem? he) _).append_left _)

theorem inserted (h : c.Accounted log) {ds : List (Departure κ ν)}
    (hinserted : Inserted c key value ds c') :
    c'.Accounted (.inserted key value :: ((ds.map Departure.entry).map
      fun entry => Event.evicted entry.1 entry.2).reverse ++ log) := by
  cases hinserted with
  | replaced he => exact h.replace he value
  | entered hnew hroom => exact h.enter hnew hroom value
  | @evicting d c₁ hnew hfull hevicts =>
      exact (h.evict hevicts).enter (fun hk => hnew (hevicts.mem hk))
        (hevicts.size_lt hfull) value

theorem get (h : c.Accounted log) (key : κ) : (c.get key).2.Accounted log where
  kept := h.kept.get key
  current_eq := fun k => (value?_get c key k).trans (h.current_eq k)
  latest := h.latest
  residencies := by
    rw [Cache.get]
    cases he : c.entries[key]? with
    | none => exact h.residencies
    | some e =>
        exact h.residencies.trans ((keys_insert_perm (mem_of_getElem? he) _).append_left _)

theorem after (h : c.Accounted log) (op : Op κ ν) : (c.after op).Accounted (c.told op ++ log) := by
  cases op with
  | get key => exact h.get key
  | insert key value =>
      obtain ⟨htold, hinserted⟩ := h.kept.insert_outcome key value
      rw [told, htold]
      exact h.inserted hinserted

theorem foldl (h : c.Accounted log) (ops : List (Op κ ν)) :
    (ops.foldl Cache.after c).Accounted (history c log ops) := by
  induction ops generalizing c log with
  | nil => exact h
  | cons op ops ih => exact ih (h.after op)

end Accounted

/-- A cache loses nothing and has nothing twice.  A read gives the value that the key
was given last, unless the key was evicted since.  A new key evicts one entry of a
full cache, and no other insertion evicts any.  The callback is told the key with the
value that it was given last, and the residencies begun so far are those of the
entries and those that the callback was told the end of. -/
theorem run_accounted (capacity : Nat) (ops : List (Op κ ν)) :
    let c := run capacity ops
    let log := history (ofCapacity capacity) [] ops
    (∀ key, (c.get key).1 = current log key) ∧
      (∀ key value, (c.insert key value).1.length =
        if current log key = none ∧ c.size = max capacity 1 then 1 else 0) ∧
      (∀ newer key value older, log = newer ++ .evicted key value :: older →
        current older key = some value) ∧
      (begun log).Perm (gone log ++ c.entries.keys) := by
  intro c log
  have h : c.Accounted log := (accounted_ofCapacity capacity).foldl ops
  have hget : ∀ key, (c.get key).1 = current log key :=
    fun key => (get_fst c key).trans (h.current_eq key)
  refine ⟨hget, ?_, fun _ _ _ _ hlog => h.latest hlog, h.residencies⟩
  intro key value
  rw [← hget, ← capacity_run capacity ops]
  exact h.kept.length_evicted key value

/-- In a cache for one entry each new key evicts the one before. -/
theorem run_accounted_single :
    let ops : List (Op Nat Nat) := [.insert 1 10, .insert 2 20]
    let log := history (ofCapacity 1) [] ops
    log = [.inserted 2 20, .evicted 1 10, .inserted 1 10] ∧
      ((run 1 ops).get 1).1 = none ∧ ((run 1 ops).insert 3 30).1.length = 1 := by
  intro ops log
  have hlog : log = [.inserted 2 20, .evicted 1 10, .inserted 1 10] := by decide +kernel
  have hsize : (run 1 ops).size = max 1 1 := by decide +kernel
  obtain ⟨hget, hinsert, -⟩ := run_accounted 1 ops
  have hcurrent : current log 1 = none ∧ current log 3 = none := by
    rw [hlog]
    exact ⟨rfl, rfl⟩
  refine ⟨hlog, (hget 1).trans hcurrent.1, (hinsert 3 30).trans ?_⟩
  exact if_pos ⟨hcurrent.2, hsize⟩

end

end Cache

end Leaderboard
