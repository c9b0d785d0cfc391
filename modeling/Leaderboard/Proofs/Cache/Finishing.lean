import Leaderboard.Proofs.Cache.Accounting

/-!
# Evicting comes to an end

Four loops run while room is made for a new entry.  The insertion calls `evict` until
there is room.  A call looks at one key after the other, of the small queue or of the main
queue, until one is evicted.  And after an eviction from the small queue places of the
ghost queue are forgotten until they are no more than the capacity.  For any cache the
scans come to what these loops come to (`scanSmall_finishes`, `scanMain_finishes`), and so
does `makeRoom` (`makeRoom_of_finishes`).

A key of the small queue is looked at once.  A key of the main queue may come up again,
but each time with one read less, so the turns are no more than the reads that are left
and the keys together (`turns`).  Hence `eviction_finishes`: in every cache that comes of
an empty one the insertion makes two calls at most, the first of which may do no more than
move the keys of the small queue to the main queue.
-/

namespace Leaderboard

namespace Cache

variable {κ ν : Type} [Ord κ]

/-! ## Turns -/

/-- What a call that looks at the small queue takes off a queue. -/
inductive Taken (κ : Type) where
  /-- The first key of the small queue. -/
  | key (key : κ)
  /-- The oldest place of the ghost queue. -/
  | ghost (ghost : κ × Nat)

/-- The place of a key in the ghost queue, before the oldest places are forgotten. -/
def addGhost (c : Cache κ ν) (key : κ) : Cache κ ν :=
  { c with
    lastTag := c.lastTag + 1
    tags := c.tags.insert key (c.lastTag + 1)
    ghosts := c.ghosts ++ [(key, c.lastTag + 1)] }

theorem length_ghosts_addGhost (c : Cache κ ν) (key : κ) :
    (c.addGhost key).ghosts.length = c.ghosts.length + 1 := List.length_append

theorem remember_eq (c : Cache κ ν) (key : κ) : c.remember key = (c.addGhost key).forget := rfl

/-- A turn of `evictSmall`, given what was evicted so far.  A key without an entry is
skipped, and one that was read more than once moves to the main queue.  Once a key is
evicted and has its place in the ghost queue, the oldest places go. -/
def turnSmall : Option (κ × ν) × Cache κ ν → Option (Taken κ × Option (κ × ν) × Cache κ ν)
  | (none, c) =>
      match c.small with
      | [] => none
      | key :: rest =>
          match c.entries[key]? with
          | none => some (.key key, none, { c with small := rest })
          | some e =>
              if e.reads > 1 then
                some (.key key, none, { c with
                  small := rest
                  main := c.main ++ [key]
                  entries := c.entries.insert key { e with reads := 0 } })
              else
                some (.key key, some (key, e.value),
                  addGhost { c with small := rest, entries := c.entries.erase key } key)
  | (some entry, c) =>
      match c.ghosts with
      | [] => none
      | ghost :: rest =>
          if c.ghosts.length > c.capacity then
            some (.ghost ghost, some entry,
              { c with ghosts := rest, tags := expire c.tags ghost })
          else none

/-- A turn of `evictMain`, given what was evicted so far.  A key without an entry is
skipped, and one that was read goes to the back. -/
def turnMain : Option (κ × ν) × Cache κ ν → Option (κ × Option (κ × ν) × Cache κ ν)
  | (some _, _) => none
  | (none, c) =>
      match c.main with
      | [] => none
      | key :: rest =>
          match c.entries[key]? with
          | none => some (key, none, { c with main := rest })
          | some e =>
              if e.reads = 0 then
                some (key, some (key, e.value),
                  { c with main := rest, entries := c.entries.erase key })
              else
                some (key, none, { c with
                  main := rest ++ [key]
                  entries := c.entries.insert key { e with reads := e.reads - 1 } })

/-! ## Calls -/

/-- As many of the oldest places are forgotten as there are beyond the capacity. -/
theorem forget_finishes (entry : κ × ν) (c : Cache κ ν) :
    ∃ forgotten : List (κ × Nat), Finishes turnSmall (some entry, c) (forgotten.map .ghost)
        (some entry, c.forget) ∧
      forgotten.length = c.ghosts.length - c.capacity := by
  generalize hexcess : c.ghosts.length - c.capacity = excess
  induction excess generalizing c with
  | zero =>
      have hforget : c.forget = c := by
        rw [forget_eq, hexcess]
        rfl
      rw [hforget]
      refine ⟨[], .stop ?_, rfl⟩
      rw [turnSmall]
      split
      · rfl
      · exact if_neg (by omega)
  | succ excess ih =>
      cases hghosts : c.ghosts with
      | nil =>
          rw [hghosts, List.length_nil, Nat.zero_sub] at hexcess
          cases hexcess
      | cons ghost rest =>
          rw [hghosts, List.length_cons] at hexcess
          let older : Cache κ ν := { c with ghosts := rest, tags := expire c.tags ghost }
          have hrest : rest.length - c.capacity = excess := by omega
          obtain ⟨forgotten, hfinishes, hlength⟩ := ih older hrest
          have hforget : older.forget = c.forget := by
            rw [forget_eq, forget_eq, hghosts, List.length_cons, hexcess]
            show ({ c with ghosts := _, tags := _ } : Cache κ ν) = _
            rw [hrest, List.drop_succ_cons, List.take_succ_cons, List.foldl_cons]
          rw [← hforget]
          refine ⟨ghost :: forgotten, .next ?_ hfinishes, congrArg (· + 1) hlength⟩
          simp only [turnSmall, hghosts, List.length_cons]
          exact if_pos (by omega)

/-- The keys that are looked at are taken from the front of the small queue, and no key
comes up again. -/
theorem scanSmall_finishes (c : Cache κ ν) (queue : List κ) :
    ∃ (popped : List κ) (forgotten : List (κ × Nat)),
      Finishes turnSmall (none, { c with small := queue })
        (popped.map .key ++ forgotten.map .ghost) (c.scanSmall queue) ∧
      queue = popped ++ (c.scanSmall queue).2.small ∧
      forgotten.length ≤ c.ghosts.length + 1 - c.capacity := by
  induction queue generalizing c with
  | nil => exact ⟨[], [], .stop rfl, rfl, Nat.zero_le _⟩
  | cons key rest ih =>
      rw [scanSmall]
      cases he : c.entries[key]? with
      | none =>
          obtain ⟨popped, forgotten, hfinishes, hqueue, hlength⟩ := ih c
          refine ⟨key :: popped, forgotten, .next ?_ hfinishes, congrArg (key :: ·) hqueue,
            hlength⟩
          simp only [turnSmall, he]
      | some e =>
          dsimp only
          by_cases hreads : e.reads > 1
          · rw [if_pos hreads]
            obtain ⟨popped, forgotten, hfinishes, hqueue, hlength⟩ := ih { c with
              entries := c.entries.insert key { e with reads := 0 }
              main := c.main ++ [key] }
            refine ⟨key :: popped, forgotten, .next ?_ hfinishes, congrArg (key :: ·) hqueue,
              hlength⟩
            simp only [turnSmall, he, if_pos hreads]
          · rw [if_neg hreads, remember_eq]
            obtain ⟨forgotten, hfinishes, hlength⟩ := forget_finishes (key, e.value)
              (addGhost { c with small := rest, entries := c.entries.erase key } key)
            refine ⟨[key], forgotten, .next ?_ hfinishes, rfl, ?_⟩
            · simp only [turnSmall, he, if_neg hreads]
            · rw [hlength, length_ghosts_addGhost]
              exact Nat.le_refl _

/-- The keys in a queue take no more turns than there are reads that can count. -/
theorem turns_le {entries : Std.TreeMap κ (Entry ν)} {most : Nat}
    (hreads : ∀ ⦃key : κ⦄ ⦃e : Entry ν⦄, entries[key]? = some e → e.reads ≤ most)
    (queue : List κ) : turns entries queue ≤ (most + 1) * queue.length := by
  induction queue with
  | nil => exact Nat.zero_le _
  | cons key rest ih =>
      have hkey : (entries[key]?.map Entry.reads).getD 0 ≤ most := by
        cases he : entries[key]? with
        | none => exact Nat.zero_le _
        | some e => exact hreads he
      rw [turns, List.length_cons, Nat.mul_succ]
      omega

variable [Std.TransOrd κ] [Std.LawfulEqOrd κ]

/-- Every key that is looked at uses up a turn. -/
theorem scanMain_finishes (c : Cache κ ν) (entries : Std.TreeMap κ (Entry ν)) (queue : List κ) :
    ∃ popped,
      Finishes turnMain (none, { c with main := queue, entries }) popped
        ((scanMain entries queue).1,
          { c with main := (scanMain entries queue).2.1
                   entries := (scanMain entries queue).2.2 }) ∧
      popped.length ≤ turns entries queue := by
  fun_induction scanMain entries queue with
  | case1 entries => exact ⟨[], .stop rfl, Nat.zero_le _⟩
  | case2 entries key rest hmissing ih =>
      obtain ⟨popped, hfinishes, hlength⟩ := ih
      refine ⟨key :: popped, .next ?_ hfinishes, ?_⟩
      · simp only [turnMain, hmissing]
      · rw [turns, List.length_cons]
        omega
  | case3 entries key rest e he hzero =>
      refine ⟨[key], .next ?_ (.stop rfl), ?_⟩
      · simp only [turnMain, he, if_pos hzero]
      · rw [turns, List.length_singleton]
        omega
  | case4 entries key rest e he hreads hlt ih =>
      obtain ⟨popped, hfinishes, hlength⟩ := ih
      refine ⟨key :: popped, .next ?_ hfinishes, Nat.lt_of_le_of_lt hlength hlt⟩
      simp only [turnMain, he, if_neg hreads]

/-- What a call takes away from a cache is the entry that it gives, and nothing if it
gives none. -/
def Takes (c : Cache κ ν) : Option (κ × ν) × Cache κ ν → Prop
  | (none, c') => ∀ k, c'.value? k = c.value? k
  | (some (key, value), c') =>
      c.value? key = some value ∧ c'.value? key = none ∧
        ∀ k, k ≠ key → c'.value? k = c.value? k

theorem Outcome.takes {c : Cache κ ν} {queue : Queue} {r : Option (κ × ν) × Cache κ ν}
    (h : Outcome c queue r) : c.Takes r := by
  cases h with
  | drained hmoves hsmall => exact value?_eq_of_stays hmoves
  | evicted hevicts =>
      exact ⟨hevicts.value?_self, hevicts.value?_gone, fun _ hk => hevicts.value?_of_ne hk⟩

namespace Kept

variable {c : Cache κ ν}

theorem evict_takes (h : c.Kept) : c.Takes c.evict := (evict_outcome h.queued).takes

theorem evictSmall_finishes (h : c.Kept) (hsource : c.source = .small) :
    ∃ (popped : List κ) (forgotten : List (κ × Nat)),
      Finishes turnSmall (none, c) (popped.map .key ++ forgotten.map .ghost) c.evict ∧
        c.small = popped ++ c.evict.2.small ∧ popped.Nodup ∧ forgotten.length ≤ 1 := by
  have hevict : c.evict = c.scanSmall c.small := by rw [evict_eq, hsource, evictSmall]
  rw [hevict]
  obtain ⟨popped, forgotten, hfinishes, hqueue, hlength⟩ := scanSmall_finishes c c.small
  refine ⟨popped, forgotten, hfinishes, hqueue, ?_, ?_⟩
  · have hnodup : (c.small ++ c.main).Nodup := h.queued.nodup_iff.mpr Std.TreeMap.nodup_keys
    rw [hqueue] at hnodup
    exact hnodup.of_append_left.of_append_left
  · have hghosts := h.ghosts_le
    omega

theorem evictMain_finishes (h : c.Kept) (hsource : c.source = .main) :
    ∃ popped,
      Finishes turnMain (none, c) popped c.evict ∧
        popped.length ≤ (maxReads + 1) * c.main.length ∧ ∃ entry, c.evict.1 = some entry := by
  have hevict : c.evict = c.evictMain := by rw [evict_eq, hsource]
  obtain ⟨popped, hfinishes, hlength⟩ := scanMain_finishes c c.entries c.main
  obtain ⟨d, c', -, -, hgiven⟩ := evict_of_main h.queued hsource
  refine ⟨popped, ?_, Nat.le_trans hlength (turns_le h.reads_le c.main), d.entry, ?_⟩
  · rw [hevict]
    exact hfinishes
  · rw [hgiven]

end Kept

/-! ## Insertions -/

theorem MakesRoom.kept {c c' : Cache κ ν} {d : Departure κ ν} {calls : List (Cache κ ν)}
    (h : MakesRoom c d c' calls) (hkept : c.Kept) : ∀ call ∈ calls, call.Kept := by
  cases h with
  | once hsource hevict h => exact List.forall_mem_singleton.mpr hkept
  | twice hsmall hdrained hmoves hsource hevict h =>
      have hkept₁ := stays_induct (fun _ _ hstep hc => hc.of_stays hstep) hmoves hkept
      exact List.forall_mem_cons.mpr ⟨hkept, List.forall_mem_singleton.mpr hkept₁⟩

/-- The loop that makes room comes to an end, after no more calls than it is allowed. -/
theorem Kept.room_finishes {c : Cache κ ν} (h : c.Kept) :
    ∃ calls c', Finishes turnRoom c calls c' ∧ calls.length ≤ 2 ∧
      calls.length ≤ c.patience ∧ ∀ call ∈ calls, call.Kept := by
  obtain hroom | hfull := Nat.lt_or_eq_of_le h.size_le
  · exact ⟨[], c, finishes_of_room hroom, Nat.zero_le _, Nat.zero_le _, nofun⟩
  · obtain ⟨d, c', calls, hmakes⟩ := makesRoom_of_full h.queued h.capacity_pos hfull
    exact ⟨calls, c', hmakes.finishes hfull, hmakes.length_le,
      hmakes.length_le_patience h.queued (hfull.symm ▸ h.capacity_pos), hmakes.kept h⟩

/-- Eviction comes to an end.  In every cache that comes of an empty one the loop that
makes room for a new entry stops after two calls at most.  A call that looks at the small
queue takes each of its keys off once at most, forgets one ghost at most and evicts one
entry or none.  A call that looks at the main queue takes off no more keys than four times
its length and evicts one entry.  An insertion of a key without an entry makes just these
calls, and any other insertion makes none. -/
theorem eviction_finishes (capacity : Nat) (ops : List (Op κ ν)) :
    let c := run capacity ops
    ∃ calls c', Finishes turnRoom c calls c' ∧ calls.length ≤ 2 ∧
      (∀ call ∈ calls, call.Takes call.evict ∧
        (call.source = .small → ∃ (popped : List κ) (forgotten : List (κ × Nat)),
          Finishes turnSmall (none, call) (popped.map .key ++ forgotten.map .ghost) call.evict ∧
            call.small = popped ++ call.evict.2.small ∧ popped.Nodup ∧ forgotten.length ≤ 1) ∧
        (call.source = .main → ∃ popped,
          Finishes turnMain (none, call) popped call.evict ∧
            popped.length ≤ 4 * call.main.length ∧ ∃ entry, call.evict.1 = some entry)) ∧
      ∀ key value, c.insert key value =
        match c.entries[key]? with
        | some e => ([], { c with entries := c.entries.insert key { e with value } })
        | none => (calls.flatMap fun call => call.evict.1.toList, c'.enter key value) := by
  intro c
  obtain ⟨calls, c', hfinishes, hlength, hpatience, hkept⟩ := (kept_run capacity ops).room_finishes
  refine ⟨calls, c', hfinishes, hlength, fun call hcall => ?_, fun key value => ?_⟩
  · have h := hkept call hcall
    exact ⟨h.evict_takes, h.evictSmall_finishes, h.evictMain_finishes⟩
  · rw [insert]
    cases c.entries[key]? with
    | some e => rfl
    | none =>
        dsimp only
        rw [(makeRoom_of_finishes hfinishes hpatience).1]
        rfl

/-- A full cache for two entries, both of them read twice: the first call moves both keys
to the main queue, and the second one evicts the first of them. -/
theorem eviction_finishes_drained :
    let c : Cache Nat Nat :=
      run 2 [.insert 1 10, .get 1, .get 1, .insert 2 20, .get 2, .get 2]
    c.source = .small ∧ c.evict.1 = none ∧ c.evict.2.source = .main ∧
      (∃ (popped : List Nat) (forgotten : List (Nat × Nat)),
        Finishes turnSmall (none, c) (popped.map .key ++ forgotten.map .ghost) c.evict ∧
          c.small = popped ++ c.evict.2.small ∧ popped.Nodup ∧ forgotten.length ≤ 1) ∧
      (∃ popped,
        Finishes turnMain (none, c.evict.2) popped c.evict.2.evict ∧ popped.length ≤ 8 ∧
          ∃ entry, c.evict.2.evict.1 = some entry) ∧
      (c.insert 3 30).1 = [(1, 10)] := by
  intro c
  have hsmall : c.source = .small := by decide +kernel
  have hmain : c.evict.2.source = .main := by decide +kernel
  have hfull : c.size = c.capacity ∧ c.evict.2.size = c.evict.2.capacity := by decide +kernel
  have hroom : c.evict.2.evict.2.size < c.evict.2.evict.2.capacity := by decide +kernel
  have hloop : Finishes turnRoom c [c, c.evict.2] c.evict.2.evict.2 :=
    .next (turnRoom_of_full hfull.1) (.next (turnRoom_of_full hfull.2) (finishes_of_room hroom))
  obtain ⟨calls, c', hfinishes, -, hcalls, -⟩ :=
    eviction_finishes 2
      [.insert (1 : Nat) (10 : Nat), .get 1, .get 1, .insert 2 20, .get 2, .get 2]
  obtain ⟨rfl, -⟩ := hfinishes.unique hloop
  obtain ⟨-, hfirst, -⟩ := hcalls c List.mem_cons_self
  obtain ⟨-, -, hsecond⟩ := hcalls c.evict.2 (List.mem_cons_of_mem c List.mem_cons_self)
  have hlength : c.evict.2.main.length = 2 := by decide +kernel
  obtain ⟨popped, hpopped, hle, hevicted⟩ := hsecond hmain
  rw [hlength] at hle
  exact ⟨hsmall, by decide +kernel, hmain, hfirst hsmall, ⟨popped, hpopped, hle, hevicted⟩,
    by decide +kernel⟩

end Cache

end Leaderboard
