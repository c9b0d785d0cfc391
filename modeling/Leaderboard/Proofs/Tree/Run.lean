import Leaderboard.Proofs.Tree.Map

/-!
# Runs of requests

A tree in a store that never fails answers any run of requests as a sorted map
does.  `Request.apply` says what a request makes of the map, and `Reply.Answers`
which reply the map gives.  `Conforms` says of a run that every request is
answered so, and that a request that changes nothing puts nothing.

`conforms_of_representable` is the statement.  One request is
`Request.serve_models`: it takes contents that model a map to contents that model
the map it should.

The keys that are inserted are required to have their separator.  An insert in an
empty tree looks at no key, and the pointer to the root is the one that is checked
when it is read.  So a key without it is inserted, and then every request fails
(`crooked_key_not_conforms`).
-/

namespace Leaderboard

/-- A request to a tree. -/
inductive Request where
  /-- To insert or delete. -/
  | change (change : Change)
  /-- For the payload at a key. -/
  | search (key : RankKey)
  /-- For the pointer to the root. -/
  | root
  /-- Whether there are no nodes. -/
  | isEmpty
  /-- For all entries. -/
  | entries
deriving DecidableEq, Repr

/-- A reply to a request. -/
inductive Reply where
  /-- Whether something was inserted or deleted. -/
  | changed (done : Bool)
  /-- The payload that was found, if any. -/
  | found (payload : Option String)
  /-- The pointer to the root. -/
  | pointer (ref : NodeRef)
  /-- Whether there are no nodes. -/
  | empty (isEmpty : Bool)
  /-- The entries. -/
  | listed (entries : List Placement)
deriving DecidableEq, Repr

namespace Request

/-- Serves a request from the records of a tree. -/
def serve (t : Tree) : Request → Access Reply
  | change ch => .changed <$> ch.serve t
  | search key => .found <$> t.search key
  | root => .pointer <$> t.root
  | isEmpty => .empty <$> t.isEmpty
  | entries => .listed <$> t.entries

/-- What a request makes of a map. -/
def apply (m : Placements) : Request → Placements
  | change ch => ch.apply m
  | search _ | root | isEmpty | entries => m

/-- Whether a request changes a map. -/
def effective (m : Placements) : Request → Bool
  | change ch => ch.effective m
  | search _ | root | isEmpty | entries => false

/-- What a request inserts can be written down and read back. -/
def Representable : Request → Prop
  | change ch => ch.Representable
  | search _ | root | isEmpty | entries => True

instance : DecidablePred Representable
  | change ch => inferInstanceAs (Decidable ch.Representable)
  | search _ | root | isEmpty | entries => inferInstanceAs (Decidable True)

end Request

/-- A reply is the one that a map gives. -/
def Reply.Answers (m : Placements) : Request → Reply → Prop
  | .change ch, .changed done => done = ch.effective m
  | .search key, .found payload => payload = m[key]?
  | .root, .pointer ref => ref.isNone = m.isEmpty ∧ ∀ k ∈ ref, k ∈ m
  | .isEmpty, .empty e => e = m.isEmpty
  | .entries, .listed entries =>
      (entries.map Prod.fst).Pairwise (· < ·) ∧ ∀ k p, (k, p) ∈ entries ↔ m[k]? = some p
  | _, _ => False

/-- A store answers a run of requests to a tree as a map does. -/
def Conforms {σ : Type} [ByteStore σ] (t : Tree) : List Request → σ → Placements → Prop
  | [], _, _ => True
  | request :: requests, store, m =>
      ∃ reply store', (request.serve t).on store = (.ok reply, store') ∧
        reply.Answers m request ∧
        (request.effective m = false → Dialogue.puts (request.serve t).run store = []) ∧
        Conforms t requests store' (request.apply m)

open ReliableStore (Sound contents)

variable {t : Tree} {c : Contents} {m : Placements}

theorem Access.eval_map {α β : Type} {access : Access α} {a : α} {puts : List (Bytes × Bytes)}
    (h : access.eval c = (.ok a, puts)) (f : α → β) :
    (f <$> access).eval c = (.ok (f a), puts) := by
  rw [map_eq_pure_bind, Access.eval_bind h]
  exact congrArg _ (List.append_nil puts)

theorem Access.eval_map_error {α β : Type} {access : Access α} {failure : Failure}
    (h : access.eval c = (.error failure, [])) (f : α → β) :
    (f <$> access).eval c = (.error failure, []) := by
  rw [map_eq_pure_bind, Access.eval_bind_error h]

/-- Serving one request. -/
theorem Request.serve_models (request : Request) (h : t.Models c m)
    (hrep : request.Representable) (hreach : UInt64.size ≤ t.reach)
    (hsize : m.size < UInt64.size) :
    ∃ reply puts, (request.serve t).eval c = (.ok reply, puts) ∧ reply.Answers m request ∧
      (request.effective m = false → puts = []) ∧ t.Models (c.write puts) (request.apply m) := by
  have hreach' : Avl.maxHeight ≤ t.reach := Nat.le_trans (by decide) hreach
  cases request with
  | change ch =>
      obtain ⟨puts, heval, -, hputs, hmodels⟩ := ch.serve_models h hreach' hrep
      exact ⟨_, puts, Access.eval_map heval _, rfl, hputs, hmodels⟩
  | search key => exact ⟨_, [], Access.eval_map (h.search hreach' key) _, rfl, fun _ => rfl, h⟩
  | root =>
      obtain ⟨ref, heval, hnone, hmem⟩ := h.root
      exact ⟨_, [], Access.eval_map heval _, ⟨hnone, hmem⟩, fun _ => rfl, h⟩
  | isEmpty => exact ⟨_, [], Access.eval_map h.isEmpty _, rfl, fun _ => rfl, h⟩
  | entries =>
      refine ⟨_, [], Access.eval_map (h.entries hsize hreach) _, ⟨?_, fun k p => ?_⟩,
        fun _ => rfl, h⟩
      · rw [List.pairwise_map]
        exact m.ordered_keys_toList.imp fun h => RankKey.compare_lt.mp h
      · exact Std.TreeMap.mem_toList_iff_getElem?_eq_some

/-- Without the pointer to the root no request is answered. -/
theorem Request.serve_eval_of_error {failure : Failure} (request : Request)
    (hroot : t.root.eval c = (.error failure, [])) (hreach : 0 < t.reach) :
    (request.serve t).eval c = (.error failure, []) := by
  cases request with
  | change ch => exact Access.eval_map_error (ch.serve_eval_of_error hroot) _
  | search key => exact Access.eval_map_error (Access.eval_bind_error hroot _) _
  | root => exact Access.eval_map_error hroot _
  | isEmpty => exact Access.eval_map_error (Access.eval_bind_error hroot _) _
  | entries => exact Access.eval_map_error (Tree.entries_eval_of_error hroot hreach) _

/-- A request adds at most one entry. -/
theorem Request.size_foldl_apply_le (requests : List Request) (m : Placements) :
    (requests.foldl apply m).size ≤ m.size + requests.length := by
  induction requests generalizing m with
  | nil => exact Nat.le_refl _
  | cons request requests ih =>
      have hstep : (request.apply m).size ≤ m.size + 1 := by
        cases request with
        | change ch =>
            cases ch with
            | insert key payload => exact Std.TreeMap.size_insertIfNew_le
            | delete key => exact Nat.le_succ_of_le Std.TreeMap.size_erase_le
        | search key => exact Nat.le_succ _
        | root => exact Nat.le_succ _
        | isEmpty => exact Nat.le_succ _
        | entries => exact Nat.le_succ _
      have hrest := ih (request.apply m)
      rw [List.foldl_cons, List.length_cons]
      omega

/-- A run keeps what its first request left. -/
theorem conforms_of_models {σ : Type} [ByteStore σ] [ReliableStore σ] {requests : List Request}
    {store : σ} (hstore : Sound store) (h : t.Models (contents store) m)
    (hrep : ∀ request ∈ requests, request.Representable) (hreach : UInt64.size ≤ t.reach)
    (hsize : ∀ served, served <+: requests →
      (served.foldl Request.apply m).size < UInt64.size) :
    Conforms t requests store m := by
  induction requests generalizing store m with
  | nil => trivial
  | cons request requests ih =>
      have hm := hsize [] (List.nil_prefix)
      obtain ⟨reply, puts, heval, hanswers, hputs, hmodels⟩ :=
        request.serve_models h (hrep request (.head _)) hreach hm
      obtain ⟨store', hon, hstore', hcontents, hdone⟩ :=
        Access.on_eq_eval (request.serve t) hstore
      rw [heval] at hon hcontents hdone
      refine ⟨reply, store', hon, hanswers, fun hc => hdone.trans (hputs hc), ?_⟩
      rw [← hcontents] at hmodels
      exact ih hstore' hmodels (fun r hr => hrep r (.tail _ hr)) fun served hserved =>
        hsize (request :: served) (List.cons_prefix_cons.mpr ⟨rfl, hserved⟩)

/-- A tree in a store that never fails answers every run of requests as a sorted map
does, if the tree has no records at first and never as many entries as a word of
eight bytes can count. -/
theorem conforms_of_representable {σ : Type} [ByteStore σ] [ReliableStore σ] (name : TreeName)
    (tombstones : Bool) {requests : List Request} {store : σ} (hstore : Sound store)
    (hfresh : (name.tree tombstones).PointsTo (contents store) none)
    (hrep : ∀ request ∈ requests, request.Representable)
    (hsize : ∀ served, served <+: requests →
      (served.foldl Request.apply ∅).size < UInt64.size) :
    Conforms (name.tree tombstones) requests store ∅ :=
  conforms_of_models hstore (Tree.models_empty hfresh) hrep (Nat.le_refl _) hsize

/-- The node deleted has two children, and the next one is not its child. -/
theorem conforms_of_representable_memory :
    Conforms (TreeName.tree ⟨"t", by decide, by decide⟩ true)
      [.change (.insert (.make 2 0 .olderFirst) "b"),
        .change (.insert (.make 1 0 .olderFirst) "a"),
        .change (.insert (.make 4 0 .olderFirst) "d"),
        .change (.insert (.make 3 0 .olderFirst) "c"), .change (.delete (.make 2 0 .olderFirst)),
        .search (.make 3 0 .olderFirst), .root, .isEmpty, .entries]
      ({} : MemoryStore) ∅ := by
  refine conforms_of_representable _ true trivial (.inl (by simp [contents])) (by decide)
    fun served h => ?_
  have hlength := h.length_le
  have hle := Request.size_foldl_apply_le served ∅
  rw [Std.TreeMap.size_emptyc] at hle
  have hbound : 9 < UInt64.size := by decide
  rw [List.length_cons] at hlength
  simp only [List.length_cons, List.length_nil] at hlength
  omega

/-- A key without its separator is inserted in an empty tree, and no request is answered after
that: the pointer to the root cannot be read. -/
theorem crooked_key_not_conforms :
    Tree.sample.PointsTo (contents ({} : MemoryStore)) none ∧
      (∀ request, ¬ Conforms .sample [.change (.insert (.crooked 2) "b"), request]
        ({} : MemoryStore) ∅) ∧
      ∃ store, ((Request.change (.insert (.crooked 2) "b")).serve .sample).on ({} : MemoryStore) =
          (.ok (.changed true), store) ∧
        ∀ request : Request, ((request.serve .sample).on store).1 =
          .error (.malformedRecord TreeName.t.rootKey (.undecodable .missingSeparator)) := by
  have hroot : Tree.sample.PointsTo (contents ({} : MemoryStore)) none := .inl (by simp [contents])
  have hinsert : Avl.nil.insert (.crooked 2) "b" =
      some (.node .nil (.crooked 2) "b" .nil) := rfl
  obtain ⟨puts, heval, -, hholds⟩ := Tree.insert_eval_of_some (Tree.valid_nil hroot)
    (TreeName.t.maxHeight_le_reach true) (by decide) hinsert
  have hserve : ((Request.change (.insert (.crooked 2) "b")).serve .sample).eval
      (contents ({} : MemoryStore)) = (.ok (.changed true), puts) := Access.eval_map heval _
  obtain ⟨store, hon, hsound, hcontents, -⟩ := Access.on_eq_eval _ (s := ({} : MemoryStore)) trivial
  rw [hserve] at hon hcontents
  rw [← hcontents] at hholds
  have hunread := Tree.root_eval_of_not_made hholds.points (RankKey.not_made_crooked 2)
  have hlater : ∀ request : Request, ((request.serve .sample).on store).1 =
      .error (.malformedRecord TreeName.t.rootKey (.undecodable .missingSeparator)) := by
    intro request
    rw [Access.on_fst _ hsound, request.serve_eval_of_error hunread (by decide)]
    rfl
  refine ⟨hroot, fun request hconforms => ?_, store, hon, hlater⟩
  obtain ⟨_, _, hfirst, -, -, reply, _, hnext, -⟩ := hconforms
  rw [hon] at hfirst
  cases hfirst
  have herror := hlater request
  rw [hnext] at herror
  cases herror

end Leaderboard
