import Leaderboard.Proofs.Store.Recording
import Leaderboard.Proofs.Tree.Torn

/-!
# What is read after a change broke off

Whatever the records are, a search and a walk give payloads of stored nodes only
(`Tree.search_stored`, `Walk.calls_stored`).  If a tree keeps tombstones, the stored
nodes are those of the tree, and a change that breaks off adds at most the one it
inserts (`Tree.Kept.stored_take`).  So no read gives an entry that the tree did not
hold before the change, but for that one (`interrupted_change_adds_nothing`).
-/

namespace Leaderboard

open ReliableStore (Sound contents)

/-- A node with some payload is stored at a key. -/
def Tree.Stores (t : Tree) (c : Contents) (e : Placement) : Prop :=
  ∃ n, t.stored c e.1 = some n ∧ n.payload = e.2

namespace Tree

variable {t : Tree} {c : Contents}

/-! ## Searches of any contents -/

theorem searchFrom_stored {key : RankKey} {fuel : Nat} {ref : NodeRef} {p : String}
    {puts : List (Bytes × Bytes)}
    (h : (t.searchFrom key fuel ref).eval c = (.ok (some p), puts)) : t.Stores c (key, p) := by
  induction fuel generalizing ref with
  | zero => cases ref <;> cases h
  | succ fuel ih =>
      cases ref with
      | none => cases h
      | some here =>
          rw [searchFrom] at h
          rcases load_cases t c here with ⟨n, hn, hload⟩ | ⟨-, failure, -, hload⟩
          · rw [Access.eval_bind_read hload] at h
            cases hc : compare key here with
            | eq =>
                rw [hc] at h
                cases h
                exact ⟨n, Std.LawfulEqOrd.eq_of_compare hc ▸ hn, rfl⟩
            | lt =>
                rw [hc] at h
                exact ih h
            | gt =>
                rw [hc] at h
                exact ih h
          · rw [Access.eval_bind_error hload] at h
            cases h

/-- A search finds payloads of stored nodes only. -/
theorem search_stored {key : RankKey} {p : String} {puts : List (Bytes × Bytes)}
    (h : (t.search key).eval c = (.ok (some p), puts)) : t.Stores c (key, p) := by
  rcases root_cases t c with ⟨ref, -, -, hroot⟩ | ⟨failure, -, hroot⟩
  · rw [search, Access.eval_bind_read hroot] at h
    exact searchFrom_stored h
  · rw [search, Access.eval_bind_error hroot] at h
    cases h

end Tree

/-! ## Walks through any contents -/

/-- On these contents an action puts nothing, keeps what holds of the walk, and gives some answers
only, if it gives one. -/
def WalkM.Keeps {α : Type} (c : Contents) (I : Walk → Prop) (Q : α → Prop) (m : WalkM α) : Prop :=
  ∀ w, I w → ∃ reply w', Dialogue.eval (m.run.run w) c = ((reply, w'), []) ∧ I w' ∧
    ∀ a, reply = .ok a → Q a

namespace WalkM

variable {α β : Type} {c : Contents} {I : Walk → Prop} {Q : α → Prop} {R : β → Prop}

theorem keeps_pure {a : α} (h : Q a) : Keeps c I Q (pure a) := by
  refine fun w hw => ⟨_, w, rfl, hw, fun b hb => ?_⟩
  cases hb
  exact h

theorem keeps_throw (failure : Failure) : Keeps c I Q (throw failure) :=
  fun w hw => ⟨_, w, rfl, hw, fun b hb => by cases hb⟩

theorem keeps_get : Keeps c I I get := by
  refine fun w hw => ⟨_, w, rfl, hw, fun b hb => ?_⟩
  cases hb
  exact hw

theorem keeps_set {w : Walk} (h : I w) : Keeps c I (fun _ => True) (set w) :=
  fun _ _ => ⟨_, w, rfl, h, fun _ _ => trivial⟩

theorem keeps_modify {f : Walk → Walk} (h : ∀ w, I w → I (f w)) :
    Keeps c I (fun _ => True) (modify f) :=
  fun w hw => ⟨_, f w, rfl, h w hw, fun _ _ => trivial⟩

theorem Keeps.bind {m : WalkM α} {f : α → WalkM β} (h : Keeps c I Q m)
    (hf : ∀ a, Q a → Keeps c I R (f a)) : Keeps c I R (m >>= f) := by
  intro w hw
  obtain ⟨reply, w', heval, hw', hQ⟩ := h w hw
  rw [run_bind, Dialogue.eval_bind, heval]
  cases reply with
  | ok a => exact hf a (hQ a rfl) w' hw'
  | error failure => exact ⟨.error failure, w', rfl, hw', fun b hb => by cases hb⟩

theorem keeps_ask {access : Access α} {reply : Except Failure α}
    (h : access.eval c = (reply, [])) (hQ : ∀ a, reply = .ok a → Q a) :
    Keeps c I Q (Walk.ask access) :=
  fun w hw => ⟨reply, w, eval_ask h, hw, hQ⟩

end WalkM

namespace Walk

/-- Some calls of `Walk.next`, one after the other, whether or not one of them fails. -/
def calls (t : Tree) : Nat → StateT Walk Dialogue (List (Except Failure (Option Placement)))
  | 0 => pure []
  | n + 1 => do
      let reply ← (next t).run
      let replies ← calls t n
      pure (reply :: replies)

theorem run_calls_succ (t : Tree) (n : Nat) (w : Walk) :
    (calls t (n + 1)).run w = (next t).run.run w >>= fun p =>
      (calls t n).run p.2 >>= fun q => pure (p.1 :: q.1, q.2) := rfl

/-- The nodes on the stack of a walk are stored. -/
def Loaded (t : Tree) (c : Contents) (w : Walk) : Prop := ∀ e ∈ w.stack, t.stored c e.1 = some e.2

variable {t : Tree} {c : Contents}

/-- The replies to some calls are that to the first one and those to the others. -/
theorem calls_succ_eval {w w₁ w₂ : Walk} {reply : Except Failure (Option Placement)}
    {replies : List (Except Failure (Option Placement))} {n : Nat}
    (hnext : Dialogue.eval ((next t).run.run w) c = ((reply, w₁), []))
    (hcalls : Dialogue.eval ((calls t n).run w₁) c = ((replies, w₂), [])) :
    Dialogue.eval ((calls t (n + 1)).run w) c = ((reply :: replies, w₂), []) := by
  rw [run_calls_succ, Dialogue.eval_bind, hnext]
  dsimp only
  rw [Contents.write_nil, Dialogue.eval_bind, hcalls]
  rfl

open WalkM

theorem keeps_start : Keeps c (Loaded t c) (fun _ => True) (start t) := by
  refine keeps_get.bind fun w hw => ?_
  split
  · rcases Tree.root_cases t c with ⟨ref, -, -, hroot⟩ | ⟨failure, -, hroot⟩
    · exact (keeps_ask hroot fun _ _ => trivial).bind fun root _ => keeps_modify fun _ h => h
    · exact (keeps_ask hroot fun _ _ => trivial).bind fun root _ => keeps_modify fun _ h => h
  · exact keeps_pure trivial

theorem keeps_descend (n : Nat) : Keeps c (Loaded t c) (fun _ => True) (descend t n) := by
  induction n with
  | zero =>
      rw [descend]
      refine keeps_get.bind fun w hw => ?_
      split
      · exact keeps_pure trivial
      · exact keeps_throw _
  | succ n ih =>
      rw [descend]
      refine keeps_get.bind fun w hw => ?_
      split
      next => exact keeps_pure trivial
      next key _ =>
        have hload : Keeps c (Loaded t c) (fun node => t.stored c key = some node)
            (ask (t.load key)) := by
          rcases Tree.load_cases t c key with ⟨n, hn, hload⟩ | ⟨-, failure, -, hload⟩
          · refine keeps_ask hload fun node h => ?_
            cases h
            exact hn
          · exact keeps_ask hload fun node h => by cases h
        refine hload.bind fun node hnode => ?_
        refine Keeps.bind (keeps_modify fun w hw e he => ?_) fun _ _ => ih
        rcases List.mem_cons.mp he with rfl | he
        · exact hnode
        · exact hw e he

theorem keeps_pop : Keeps c (Loaded t c) (fun entry => ∀ e ∈ entry, t.Stores c e) pop := by
  refine keeps_get.bind fun w hw => ?_
  split
  next => exact keeps_pure (by simp)
  next key node stack hstack =>
    rw [Loaded, hstack] at hw
    refine Keeps.bind (keeps_set fun e he => hw e (.tail _ he)) fun _ _ => keeps_pure ?_
    intro e he
    rw [Option.mem_some_iff] at he
    subst he
    exact ⟨node, hw (key, node) (.head _), rfl⟩

theorem keeps_next : Keeps c (Loaded t c) (fun entry => ∀ e ∈ entry, t.Stores c e) (next t) :=
  keeps_start.bind fun _ _ => keeps_get.bind fun _ _ => (keeps_descend _).bind fun _ _ => keeps_pop

/-- If `next` keeps what holds of a walk and gives some answers only, so do some calls of it. -/
theorem calls_keeps {I : Walk → Prop} {Q : Option Placement → Prop} (h : Keeps c I Q (next t))
    {w : Walk} (hw : I w) (n : Nat) :
    ∃ replies w', Dialogue.eval ((calls t n).run w) c = ((replies, w'), []) ∧
      ∀ entry, .ok entry ∈ replies → Q entry := by
  induction n generalizing w with
  | zero => exact ⟨[], w, rfl, by simp⟩
  | succ n ih =>
      obtain ⟨reply, w₁, heval₁, hw₁, hQ⟩ := h w hw
      obtain ⟨replies, w₂, heval₂, hreplies⟩ := ih hw₁
      refine ⟨reply :: replies, w₂, calls_succ_eval heval₁ heval₂, fun entry he => ?_⟩
      rcases List.mem_cons.mp he with he | he
      · exact hQ entry he.symm
      · exact hreplies entry he

/-- A walk gives stored nodes only, after failures too. -/
theorem calls_stored {w : Walk} (hw : Loaded t c w) (n : Nat) :
    ∃ replies w', Dialogue.eval ((calls t n).run w) c = ((replies, w'), []) ∧
      ∀ e, .ok (some e) ∈ replies → t.Stores c e := by
  obtain ⟨replies, w', heval, hreplies⟩ := calls_keeps keeps_next hw n
  exact ⟨replies, w', heval, fun e he => hreplies (some e) he e rfl⟩

/-- A walk gives no answer if the pointer to the root cannot be read. -/
theorem calls_of_error {failure : Failure} (hroot : t.root.eval c = (.error failure, []))
    (order : Order) (n : Nat) :
    ∃ replies w', Dialogue.eval ((calls t n).run { order }) c = ((replies, w'), []) ∧
      ∀ entry, .ok entry ∉ replies := by
  have hnext : Keeps c (· = { order }) (fun _ => False) (next t) := by
    rintro w rfl
    exact ⟨_, _, next_eval_of_error hroot order, rfl, nofun⟩
  exact calls_keeps hnext rfl n

end Walk

/-! ## Changes one after the other -/

section

variable {σ : Type} [ByteStore σ] [ReliableStore σ]

/-- What changes leave, one after the other. -/
theorem Tree.Kept.onEach {t : Tree} (hreach : Avl.maxHeight ≤ t.reach)
    (htombs : t.tombstones = true) {changes : List Change}
    (hfits : ∀ change ∈ changes, change.Fits) {store : σ} {x : Avl}
    (hstore : Sound store) (h : t.Kept (contents store) x) :
    Sound (Access.onEach (changes.map (Change.serve t)) store).2 ∧
      ∃ x', t.Kept (contents (Access.onEach (changes.map (Change.serve t)) store).2) x' := by
  induction changes generalizing store x with
  | nil => exact ⟨hstore, x, h⟩
  | cons change changes ih =>
      obtain ⟨store', hon, hstore', hcontents, -⟩ := (change.serve t).on_eq_eval hstore
      obtain ⟨x', h'⟩ := h.serve hreach htombs (hfits change (.head _))
      rw [← hcontents] at h'
      simp only [List.map_cons, Access.onEach, hon]
      exact ih (fun change hchange => hfits change (.tail _ hchange)) hstore' h'

/-- After a change of a tree with tombstones broke off, no search and no walk gives an entry that
the tree did not hold before, but for the one that the change inserts. -/
theorem interrupted_change_adds_nothing (name : TreeName) {store : σ} (hstore : Sound store)
    (hroot : (name.tree true).PointsTo (contents store) none)
    (hnodes : ∀ k, (name.tree true).stored (contents store) k = none) {changes : List Change}
    (hfits : ∀ change ∈ changes, change.Fits) (last : Change) (hlast : last.Fits)
    (puts : Nat) :
    let t := name.tree true
    let held := (Access.onEach (changes.map (Change.serve t)) store).2
    let torn := (last.serve t).interrupted puts held
    (∀ k p, ((t.search k).on torn).1 = .ok (some p) →
      ((t.search k).on held).1 = .ok (some p) ∨ last = .insert k p) ∧
    ∀ order n k p, .ok (some (k, p)) ∈ (((Walk.calls t n).run { order }).run torn).1.1 →
      ((t.search k).on held).1 = .ok (some p) ∨ last = .insert k p := by
  intro t held torn
  have hreach := name.maxHeight_le_reach true
  have hempty : t.Kept (contents store) .nil :=
    ⟨Tree.holds_nil hroot, fun k _ => hnodes k⟩
  obtain ⟨hheld, x, hx⟩ := hempty.onEach hreach rfl hfits hstore
  obtain ⟨htorn, hcontents⟩ := Access.interrupted_eq (last.givesUp_serve t) hheld puts
  rcases hx.holds.valid_or with hvalid | ⟨failure, hunread⟩
  · -- a node that is stored now was an entry of the tree
    have hstores : ∀ k p, t.Stores (contents torn) (k, p) →
        ((t.search k).on held).1 = .ok (some p) ∨ last = .insert k p := by
      rintro k p ⟨n, hn, rfl⟩
      rw [hcontents] at hn
      refine (hx.stored_take hreach hlast puts hn).imp_left fun hmem => ?_
      rw [Access.on_fst _ hheld, Tree.search_eval hvalid hreach,
        (Avl.lookup_eq_some hx.holds.ordered).mpr hmem]
    constructor
    · intro k p h
      rw [Access.on_fst _ htorn] at h
      exact hstores k p (Tree.search_stored (Prod.ext h rfl))
    · intro order n k p h
      obtain ⟨replies, w, heval, hreplies⟩ :=
        Walk.calls_stored (t := t) (c := contents torn) (w := { order }) (by simp [Walk.Loaded]) n
      obtain ⟨store', hrun, -⟩ := Dialogue.run_eq_eval ((Walk.calls t n).run { order }) htorn
      rw [hrun, heval] at h
      exact hstores k p (hreplies _ h)
  · -- the change fails and puts nothing, and so do all reads
    have hsame : t.root.eval (contents torn) = (.error failure, []) := by
      rw [hcontents, last.serve_eval_of_error hunread, List.take_nil]
      exact hunread
    constructor
    · intro k p h
      rw [Access.on_fst _ htorn, Tree.search, Access.eval_bind_error hsame] at h
      cases h
    · intro order n k p h
      obtain ⟨replies, w, heval, hreplies⟩ := Walk.calls_of_error hsame order n
      obtain ⟨store', hrun, -⟩ := Dialogue.run_eq_eval ((Walk.calls t n).run { order }) htorn
      rw [hrun, heval] at h
      exact absurd h (hreplies _)

end

/-- An insert breaks off after its first put, once another key was deleted.  A leaf that is there
then has another byte in the place of the separator. -/
theorem interrupted_change_adds_nothing_memory :
    let t := TreeName.t.tree true
    let key (count : Int64) := RankKey.make count 0 .newerFirst
    let leaf := RankKey.crooked 4
    let held := (Access.onEach ([Change.insert (key 2) "b", .insert (key 3) "c",
      .insert leaf "d", .delete (key 2)].map (Change.serve t)) ({} : MemoryStore)).2
    let torn := ((Change.insert (key 1) "a").serve t).interrupted 1 held
    (∀ k p, ((t.search k).on torn).1 = .ok (some p) →
      ((t.search k).on held).1 = .ok (some p) ∨ Change.insert (key 1) "a" = .insert k p) ∧
    ∀ order n k p, .ok (some (k, p)) ∈ (((Walk.calls t n).run { order }).run torn).1.1 →
      ((t.search k).on held).1 = .ok (some p) ∨ Change.insert (key 1) "a" = .insert k p := by
  intro t key leaf held torn
  refine interrupted_change_adds_nothing (σ := MemoryStore) .t trivial
    (.inl (by simp [contents])) (fun k => ?_) (by decide) _ (by decide) 1
  simp [Tree.stored, contents]

end Leaderboard
