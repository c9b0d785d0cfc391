import Mathlib.Logic.Function.Basic
import Leaderboard.Proofs.Store.Cached
import Leaderboard.Proofs.Store.Faithful

/-!
# Overlapping reads of a cached store

`Traffic` is a cached store between the steps of its operations.  Any number of reads
are under way, each after its lookup or after the answer of the store behind the
cache, and at most one put, which that store has made and the cache has not noted.
`Traffic.Step` is one step of one of them.  The store behind the cache may fail at
any step, if it is a `FaithfulStore`.

What the cache has for a key is what the store behind has, or had just before the put
that is under way (`Traffic.Allows`).  A read may keep its answer over any number of
puts, but then the generation in which it began is over, and it does not fill the
cache; if the generation is not over, the answer is one that the cache may have.  This
is the invariant, `Traffic.Inv`.

`Traffic.coherent` draws the conclusions: while no put is under way the cache has
nothing but what the store behind it has, and a read returns what this store had at
a moment between its first step and its last, or just before the put under way.
-/

namespace Leaderboard

open FaithfulStore (Sound contents)

/-! ## Operations under way -/

/-- How far a read has come that did not find its key in the cache. -/
inductive Reading where
  /-- It has to ask the store behind the cache, and began in this generation. -/
  | missed (key : Bytes) (generation : Nat)
  /-- The store has answered. -/
  | answered (key : Bytes) (generation : Nat) (value : Option Bytes)
  /-- It has returned or failed. -/
  | over

/-- A put that the store behind the cache has made. -/
structure Writing where
  /-- The key. -/
  key : Bytes
  /-- Its new value. -/
  value : Bytes
  /-- What the store had for the key just before. -/
  before : Option Bytes

/-- A cached store between the steps of its operations. -/
structure Traffic (σ : Type) where
  /-- The store. -/
  store : CachedStore σ
  /-- The reads that did not find their keys in the cache, each under its own number. -/
  reads : Nat → Option Reading := fun _ => none
  /-- The put under way. -/
  writing : Option Writing := none

/-- What happens in a step. -/
inductive Traffic.Event where
  /-- A read finds its key in the cache and returns. -/
  | hit (key : Bytes) (value : Option Bytes)
  /-- A read does not find its key in the cache. -/
  | started (read : Nat) (key : Bytes)
  /-- The store behind the cache answers a read. -/
  | answered (read : Nat)
  /-- The store behind the cache fails a read. -/
  | failed (read : Nat)
  /-- A read fills the cache, if it may, and returns. -/
  | returned (read : Nat) (value : Option Bytes)
  /-- The store behind the cache makes a put. -/
  | wrote (key value : Bytes)
  /-- The store behind the cache fails a put. -/
  | refused (key value : Bytes)
  /-- The cache notes a put. -/
  | noted
deriving DecidableEq, Repr

namespace Traffic

variable {σ : Type} [ByteStore σ]

/-- A store behind an empty cache, with nothing under way. -/
def start (inner : σ) (capacity : Nat) : Traffic σ := { store := .ofCapacity inner capacity }

variable [FaithfulStore σ]

/-- What the store behind the cache has. -/
def inside (t : Traffic σ) : Contents := contents t.store.inner

/-- The traffic with a read having come so far. -/
def withRead (t : Traffic σ) (read : Nat) (reading : Reading) : Traffic σ :=
  { t with reads := Function.update t.reads read (some reading) }

omit [ByteStore σ] [FaithfulStore σ] in
theorem withRead_self {t : Traffic σ} {read : Nat} {reading : Reading} :
    (t.withRead read reading).reads read = some reading :=
  Function.update_self _ _ _

/-- A step of an operation. -/
inductive Step : Traffic σ → Event → Traffic σ → Prop where
  | hit {t : Traffic σ} {key : Bytes} {value : Option Bytes} {store : CachedStore σ} :
      t.store.lookup key = (some value, store) →
      Step t (.hit key value) { t with store }
  | started {t : Traffic σ} {read : Nat} {key : Bytes} {store : CachedStore σ} :
      t.reads read = none → t.store.lookup key = (none, store) →
      Step t (.started read key)
        (({ t with store } : Traffic σ).withRead read (.missed key store.generation))
  | answered {t : Traffic σ} (read : Nat) {key : Bytes} {generation : Nat}
      {value : Option Bytes} {store : CachedStore σ} :
      t.reads read = some (.missed key generation) →
      CachedStore.onInner (ByteStore.get key) t.store = (.ok value, store) →
      Step t (.answered read)
        (({ t with store } : Traffic σ).withRead read (.answered key generation value))
  | failed {t : Traffic σ} {read : Nat} {key : Bytes} {generation : Nat} {failure : Failure}
      {store : CachedStore σ} :
      t.reads read = some (.missed key generation) →
      CachedStore.onInner (ByteStore.get key) t.store = (.error failure, store) →
      Step t (.failed read) (({ t with store } : Traffic σ).withRead read .over)
  | returned {t : Traffic σ} {read : Nat} {key : Bytes} {generation : Nat}
      {value : Option Bytes} :
      t.reads read = some (.answered key generation value) →
      Step t (.returned read value)
        (({ t with store := t.store.fill generation key value } : Traffic σ).withRead read .over)
  | wrote {t : Traffic σ} (key value : Bytes) {store : CachedStore σ} :
      t.writing = none →
      CachedStore.onInner (ByteStore.put key value) t.store = (.ok (), store) →
      Step t (.wrote key value)
        { t with store, writing := some { key, value, before := t.inside key } }
  | refused {t : Traffic σ} (key value : Bytes) {failure : Failure} {store : CachedStore σ} :
      t.writing = none →
      CachedStore.onInner (ByteStore.put key value) t.store = (.error failure, store) →
      Step t (.refused key value) { t with store }
  | noted {t : Traffic σ} {w : Writing} : t.writing = some w →
      Step t .noted { t with store := t.store.note w.key w.value, writing := none }

/-- Some steps, and the states between them from the first to the last. -/
inductive Run (t : Traffic σ) : List (Traffic σ) → Traffic σ → Prop where
  | stay : Run t [t] t
  | step {during : List (Traffic σ)} {t₁ t₂ : Traffic σ} {event : Event} :
      Run t during t₁ → Step t₁ event t₂ → Run t (during ++ [t₂]) t₂

/-- A read that returns a value: the state before its first step, the states between
its first step and its last, and the state after its last step. -/
inductive Reads (key : Bytes) (value : Option Bytes) :
    Traffic σ → List (Traffic σ) → Traffic σ → Prop where
  /-- The first step is the last. -/
  | hit {t t' : Traffic σ} : Step t (.hit key value) t' → Reads key value t [t] t'
  /-- The store behind the cache was asked. -/
  | missed {t t₁ t₂ t' : Traffic σ} {during : List (Traffic σ)} {read : Nat} :
      Step t (.started read key) t₁ → Run t₁ during t₂ → Step t₂ (.returned read value) t' →
      Reads key value t during t'

/-! ## Operations that nothing overlaps -/

section

variable {t : Traffic σ} {read : Nat}

/-- A read is its steps in a row, -/
theorem run_get (hnew : t.reads read = none) (key : Bytes) :
    ∃ during t', Run t during t' ∧ t'.store = (ByteStore.get key t.store).2 ∧
      ∀ value, (ByteStore.get key t.store).1 = .ok value →
        ∃ between, Reads key value t between t' := by
  have hlookup := t.store.lookup_eq key
  cases hfound : t.store.cache.value? key with
  | some found =>
      rw [hfound] at hlookup
      have hstep : Step t (.hit key found) _ := .hit hlookup
      rw [CachedStore.get_of_hit hlookup]
      refine ⟨_, _, .step .stay hstep, rfl, fun value hvalue => ?_⟩
      cases hvalue
      exact ⟨_, .hit hstep⟩
  | none =>
      rw [hfound] at hlookup
      have hstart : Step t (.started read key) _ := .started hnew hlookup
      cases hinner : ByteStore.get key t.store.inner with
      | mk reply inner =>
          cases reply with
          | error failure =>
              rw [CachedStore.get_of_error hlookup hinner]
              exact ⟨_, _, .step (.step .stay hstart)
                (.failed withRead_self (CachedStore.onInner_eq hinner)), rfl, nofun⟩
          | ok found =>
              rw [CachedStore.get_of_miss hlookup hinner]
              refine ⟨_, _, .step (.step (.step .stay hstart)
                (.answered _ withRead_self (CachedStore.onInner_eq hinner)))
                (.returned withRead_self), rfl, fun value hvalue => ?_⟩
              cases hvalue
              exact ⟨_, .missed hstart (.step .stay
                (.answered _ withRead_self (CachedStore.onInner_eq hinner)))
                (.returned withRead_self)⟩

/-- and so is a put. -/
theorem run_put (hidle : t.writing = none) (key value : Bytes) :
    ∃ during t', Run t during t' ∧ t'.store = (ByteStore.put key value t.store).2 ∧
      t'.writing = none := by
  cases hinner : ByteStore.put key value t.store.inner with
  | mk reply inner =>
      cases reply with
      | error failure =>
          rw [CachedStore.put_of_error hinner]
          exact ⟨_, _, .step .stay (.refused _ _ hidle (CachedStore.onInner_eq hinner)), rfl, hidle⟩
      | ok a =>
          rw [CachedStore.put_of_ok hinner]
          exact ⟨_, _, .step (.step .stay (.wrote _ _ hidle (CachedStore.onInner_eq hinner)))
            (.noted rfl), rfl, rfl⟩

end

/-! ## The invariant -/

/-- A value that the cache may have for a key. -/
def Allows (t : Traffic σ) (key : Bytes) (value : Option Bytes) : Prop :=
  t.inside key = value ∨ ∃ w, t.writing = some w ∧ w.key = key ∧ w.before = value

/-- What holds of a read under way.  It began in a generation up to the current one; if
this is the current one, its answer may be cached. -/
def Fair (t : Traffic σ) : Option Reading → Prop
  | some (.missed _ generation) => generation ≤ t.store.generation
  | some (.answered key generation value) =>
      generation < t.store.generation ∨ generation = t.store.generation ∧ t.Allows key value
  | some .over => True
  | none => True

/-- What holds between the steps. -/
structure Inv (t : Traffic σ) : Prop where
  /-- The store behind the cache is sound. -/
  sound : Sound t.store.inner
  /-- The cache has what it may have. -/
  cached : t.store.cache.All t.Allows
  /-- Every read may go on. -/
  fair : ∀ read, t.Fair (t.reads read)
  /-- The store behind the cache has made the put under way. -/
  made : ∀ w, t.writing = some w → t.inside w.key = some w.value

variable {t t' t₁ t₂ : Traffic σ} {event : Event} {reading : Reading} {read : Nat} {key : Bytes}
  {value : Option Bytes} {during : List (Traffic σ)}

/-- While no put is under way, the cache may have only what the store has. -/
theorem Allows.eq_inside (h : t.Allows key value) (hidle : t.writing = none) :
    t.inside key = value := by
  cases h with
  | inl hinside => exact hinside
  | inr hbefore =>
      obtain ⟨w, hw, -, -⟩ := hbefore
      rw [hidle] at hw
      cases hw

omit [ByteStore σ] [FaithfulStore σ] in
/-- What holds of all reads still does if it holds of one that has come further. -/
theorem forall_withRead {P : Option Reading → Prop} (h : ∀ r, P (t.reads r))
    (hread : P (some reading)) (r : Nat) : P ((t.withRead read reading).reads r) := by
  show P (Function.update t.reads read (some reading) r)
  rw [Function.update_apply]
  split
  · exact hread
  · exact h r

/-- Within a generation the invariant is kept by whatever does not forbid values. -/
theorem inv_of_allows (t : Traffic σ) (hsound : Sound t'.store.inner)
    (hgeneration : t'.store.generation = t.store.generation)
    (hallows : ∀ ⦃key value⦄, t.Allows key value → t'.Allows key value)
    (hcached : t'.store.cache.All t.Allows) (hfair : ∀ read, t.Fair (t'.reads read))
    (hmade : ∀ w, t'.writing = some w → t'.inside w.key = some w.value) : Inv t' := by
  refine ⟨hsound, fun key value hv => hallows (hcached hv), fun read => ?_, hmade⟩
  have hread := hfair read
  rcases hreading : t'.reads read with _ | ⟨⟨key, generation⟩ | ⟨key, generation, value⟩ | _⟩
  · trivial
  · rw [hreading] at hread
    exact Nat.le_trans hread (Nat.le_of_eq hgeneration.symm)
  · rw [hreading] at hread
    rw [Fair, hgeneration]
    exact hread.imp_right fun hsame => ⟨hsame.1, hallows hsame.2⟩
  · trivial

/-- Most steps change nothing of what the store has, and no put is made or noted. -/
theorem Inv.of_eq (h : Inv t) (hsound : Sound t'.store.inner) (hinside : t'.inside = t.inside)
    (hgeneration : t'.store.generation = t.store.generation) (hwriting : t'.writing = t.writing)
    (hcached : t'.store.cache.All t.Allows) (hfair : ∀ read, t.Fair (t'.reads read)) : Inv t' := by
  refine inv_of_allows t hsound hgeneration (fun key value hv => ?_) hcached hfair fun w hw => ?_
  · rw [Allows, hinside, hwriting]
    exact hv
  · rw [hinside]
    exact h.made w (hwriting ▸ hw)

theorem inv_start {inner : σ} (h : Sound inner) (capacity : Nat) : Inv (start inner capacity) where
  sound := h
  cached := Cache.all_ofCapacity _
  fair _ := trivial
  made _ hw := by cases hw

/-- When a put is made, the cache has for its key what the store had before. -/
theorem Inv.wrote {key value : Bytes} {inner : σ} (h : Inv t) (hidle : t.writing = none)
    (hput : ByteStore.put key value t.store.inner = (.ok (), inner)) :
    Inv { t with
      store := { t.store with inner }
      writing := some { key, value, before := t.inside key } } := by
  obtain ⟨hsound, hcontents, -⟩ := FaithfulStore.put_holds h.sound hput
  have hinside : contents inner = t.inside.put key value := hcontents rfl
  refine inv_of_allows t hsound rfl (fun k v hv => ?_) h.cached h.fair fun w hw => ?_
  · have hbefore := hv.eq_inside hidle
    by_cases hk : k = key
    · subst hk
      exact .inr ⟨_, rfl, rfl, hbefore⟩
    · refine .inl ?_
      rw [← hbefore, inside, hinside, Contents.put_of_ne _ _ hk]
  · cases hw
    rw [inside, hinside, Contents.put_self]

/-- When a put is noted, the cache has the new value, and every read under way began in
a generation that is over. -/
theorem Inv.noted {w : Writing} (h : Inv t) (hw : t.writing = some w) :
    Inv { t with store := t.store.note w.key w.value, writing := none } := by
  refine ⟨h.sound, h.cached.insert (.inl (h.made w hw)) ?_, fun read => ?_, nofun⟩
  · rintro k v hk (hv | ⟨w', hw', hkey, -⟩)
    · exact .inl hv
    · rw [hw] at hw'
      cases hw'
      exact absurd hkey.symm hk
  · have hread := h.fair read
    dsimp only
    rcases hreading : t.reads read with _ | ⟨⟨key, generation⟩ | ⟨key, generation, value⟩ | _⟩
    · trivial
    · rw [hreading] at hread
      exact Nat.le_succ_of_le hread
    · rw [hreading] at hread
      have hle : generation ≤ t.store.generation :=
        hread.elim Nat.le_of_lt fun hsame => Nat.le_of_eq hsame.1
      exact .inl (Nat.lt_succ_of_le hle)
    · trivial

/-- Every step keeps the invariant. -/
theorem Step.inv (hstep : Step t event t') (h : Inv t) : Inv t' := by
  cases hstep with
  | @hit key value store hlookup =>
      rw [t.store.lookup_eq] at hlookup
      obtain ⟨-, rfl⟩ := Prod.mk.inj hlookup
      exact h.of_eq h.sound rfl rfl rfl (h.cached.get key) h.fair
  | @started read key store _ hlookup =>
      rw [t.store.lookup_eq] at hlookup
      obtain ⟨-, rfl⟩ := Prod.mk.inj hlookup
      exact h.of_eq h.sound rfl rfl rfl (h.cached.get key)
        (forall_withRead h.fair (Nat.le_refl _))
  | @answered read key generation value store hread hinner =>
      obtain ⟨inner, hget, rfl⟩ := CachedStore.exists_of_onInner hinner
      obtain ⟨hsound, hcontents, hvalue⟩ := FaithfulStore.get_holds h.sound hget
      have hbegun := h.fair read
      rw [hread] at hbegun
      have hanswer : t.Fair (some (.answered key generation value)) :=
        (Nat.lt_or_eq_of_le hbegun).imp_right fun heq => ⟨heq, .inl (hvalue value rfl).symm⟩
      exact h.of_eq hsound hcontents rfl rfl h.cached (forall_withRead h.fair hanswer)
  | failed _ hinner =>
      obtain ⟨inner, hget, rfl⟩ := CachedStore.exists_of_onInner hinner
      obtain ⟨hsound, hcontents, -⟩ := FaithfulStore.get_holds h.sound hget
      exact h.of_eq hsound hcontents rfl rfl h.cached (forall_withRead h.fair trivial)
  | @returned read key generation value hread =>
      have hanswer := h.fair read
      rw [hread] at hanswer
      rw [CachedStore.fill]
      split
      · -- the generation is not over, so no put was noted since the lookup
        rename_i hgeneration
        have hallowed : t.Allows key value :=
          hanswer.elim (fun hover => absurd hgeneration (Nat.ne_of_gt hover)) And.right
        exact h.of_eq h.sound rfl rfl rfl (h.cached.insert hallowed fun _ _ _ hk => hk)
          (forall_withRead h.fair trivial)
      · exact h.of_eq h.sound rfl rfl rfl h.cached (forall_withRead h.fair trivial)
  | refused _ _ _ hinner =>
      obtain ⟨inner, hput, rfl⟩ := CachedStore.exists_of_onInner hinner
      obtain ⟨hsound, -, hcontents⟩ := FaithfulStore.put_holds h.sound hput
      exact h.of_eq hsound (hcontents _ rfl) rfl rfl h.cached h.fair
  | wrote _ _ hidle hinner =>
      obtain ⟨inner, hput, rfl⟩ := CachedStore.exists_of_onInner hinner
      exact h.wrote hidle hput
  | noted hw => exact h.noted hw

theorem Run.inv (hrun : Run t during t') (h : Inv t) : Inv t' := by
  induction hrun with
  | stay => exact h
  | step _ hstep ih => exact hstep.inv ih

/-! ## What a read returns -/

/-- What a read has seen of its key that was under way in some states. -/
def Seen (key : Bytes) (during : List (Traffic σ)) : Option Reading → Prop
  | some (.missed k _) => k = key
  | some (.answered k _ value) => k = key ∧ ∃ m ∈ during, m.inside key = value
  | some .over => True
  | none => False

theorem Seen.append {reading : Option Reading} (h : Seen key during reading)
    (more : List (Traffic σ)) : Seen key (during ++ more) reading := by
  rcases reading with _ | ⟨⟨k, generation⟩ | ⟨k, generation, value⟩ | _⟩
  · exact h
  · exact h
  · obtain ⟨hk, m, hm, hvalue⟩ := h
    exact ⟨hk, m, List.mem_append_left _ hm, hvalue⟩
  · trivial

theorem Seen.withRead {r : Nat} (h : Seen key during (t.reads read))
    (hread : r = read → Seen key during (some reading)) :
    Seen key during ((t.withRead r reading).reads read) := by
  show Seen key during (Function.update t.reads r (some reading) read)
  rw [Function.update_apply]
  split
  · exact hread (Eq.symm ‹_›)
  · exact h

/-- A read goes on to see its key when the store behind the cache answers. -/
theorem Step.seen (hstep : Step t event t') (h : Inv t) (hseen : Seen key during (t.reads read)) :
    Seen key (during ++ [t']) (t'.reads read) := by
  have hmore := hseen.append [t']
  cases hstep with
  | hit _ => exact hmore
  | started hnew _ =>
      refine hmore.withRead fun hread => ?_
      subst hread
      rw [hnew] at hseen
      exact hseen.elim
  | @answered r k generation value store hmissed hinner =>
      refine hmore.withRead fun hread => ?_
      subst hread
      rw [hmissed] at hseen
      obtain rfl : k = key := hseen
      obtain ⟨inner, hget, rfl⟩ := CachedStore.exists_of_onInner hinner
      obtain ⟨-, hcontents, hvalue⟩ := FaithfulStore.get_holds h.sound hget
      refine ⟨rfl, _, List.mem_append_right _ (List.mem_singleton.mpr rfl), ?_⟩
      exact (congrFun hcontents k).trans (hvalue value rfl).symm
  | failed _ _ => exact hmore.withRead fun _ => trivial
  | returned _ => exact hmore.withRead fun _ => trivial
  | wrote _ _ _ _ => exact hmore
  | refused _ _ _ _ => exact hmore
  | noted _ => exact hmore

theorem Run.seen (hrun : Run t during t') (h : Inv t) (hseen : Seen key [t] (t.reads read)) :
    Seen key during (t'.reads read) := by
  induction hrun with
  | stay => exact hseen
  | step hrun hstep ih => exact hstep.seen (hrun.inv h) ih

/-- A read returns what the store behind the cache had in between, or just before the
put under way. -/
theorem Reads.returns (hreads : Reads key value t during t') (h : Inv t) :
    (∃ m ∈ during, m.inside key = value) ∨
      ∃ w, t'.writing = some w ∧ w.key = key ∧ w.before = value := by
  cases hreads with
  | hit hstep =>
      cases hstep with
      | hit hlookup =>
          rw [t.store.lookup_eq] at hlookup
          obtain ⟨hfound, rfl⟩ := Prod.mk.inj hlookup
          exact (h.cached hfound).imp_left fun hinside =>
            ⟨t, List.mem_singleton.mpr rfl, hinside⟩
  | missed hfirst hrun hlast =>
      have hbegun : Inv _ := hfirst.inv h
      cases hfirst with
      | started hnew hlookup =>
          have hseen : Seen key during _ := hrun.seen hbegun (by rw [withRead_self]; rfl)
          cases hlast with
          | returned hread =>
              rw [hread] at hseen
              exact .inl hseen.2

/-! ## Coherence -/

/-- A cached store is coherent, whatever steps of its operations overlap.  While no put
is under way, what the cache has is what the store behind it has.  A read returns what
that store had between its first step and its last, or just before a put that is
still under way. -/
theorem coherent {inner : σ} (hinner : Sound inner) (capacity : Nat)
    {past : List (Traffic σ)} (hrun : Run (start inner capacity) past t) :
    (t.writing = none → t.store.cache.All fun key value => value = t.inside key) ∧
      ∀ {key value during t'}, Reads key value t during t' →
        (∃ m ∈ during, m.inside key = value) ∨
          ∃ w, t'.writing = some w ∧ w.key = key ∧ w.before = value := by
  have hinv := hrun.inv (inv_start hinner capacity)
  refine ⟨fun hidle key value hv => ?_, fun hreads => hreads.returns hinv⟩
  exact ((hinv.cached hv).eq_inside hidle).symm

/-- A read that straddles a put returns the absence from before, and does not fill the
cache with it.  The next put is beyond the budget of the store behind. -/
theorem coherent_metered :
    ∃ (inner : Metered MemoryStore) (t t' : Traffic (Metered MemoryStore))
      (past during : List (Traffic (Metered MemoryStore))),
      Run (start inner 0) past t ∧ Reads [0x6b] none t during t' ∧
        t.store.cache.All (fun key value => value = t.inside key) ∧
        (∃ m ∈ during, m.inside [0x6b] = none) ∧
        t'.writing = none ∧ t'.inside [0x6b] = some [0x76] := by
  let inner : Metered MemoryStore := { inner := {}, putBudget := some 2 }
  let wrote := { (start inner 0).store with inner := (ByteStore.put [0x6a] [0x75] inner).2 }
  let t : Traffic (Metered MemoryStore) := { store := wrote.note [0x6a] [0x75] }
  let t₁ := Traffic.withRead { t with store := (t.store.lookup [0x6b]).2 } 0 (.missed [0x6b] 1)
  have hpast : Run (start inner 0) _ t :=
    .step (.step .stay (.wrote _ _ rfl rfl)) (.noted (w := ⟨[0x6a], [0x75], none⟩) rfl)
  have hfirst : Step t (.started 0 [0x6b]) t₁ := .started rfl rfl
  have hanswered : Run t₁ _ _ := .step .stay (.answered 0 withRead_self rfl)
  have hwrote := hanswered.step (.wrote [0x6b] [0x76] rfl rfl)
  have hnoted := hwrote.step (.noted rfl)
  have hrefused := hnoted.step (.refused [0x6b] [0x77] rfl rfl)
  have hreads : Reads [0x6b] none t _ _ := .missed hfirst hrefused (.returned rfl)
  have hinner : Sound inner := trivial
  obtain ⟨hcoherent, hreturns⟩ := coherent hinner 0 hpast
  exact ⟨inner, t, _, _, _, hpast, hreads, hcoherent rfl, (hreturns hreads).resolve_right nofun,
    rfl, rfl⟩

end Traffic

end Leaderboard
