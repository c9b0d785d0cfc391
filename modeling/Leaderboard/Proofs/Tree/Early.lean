import Leaderboard.Proofs.Avl.Subtree
import Leaderboard.Proofs.Store.Replies
import Leaderboard.Proofs.Tree.FullWalk
import Leaderboard.Proofs.Tree.Mixture
import Leaderboard.Proofs.Tree.Survival

/-!
# Walks that stop early

A walk reads a node when it first comes to it, and keeps it on the stack until its turn.  So at
any time the nodes that it has read are those of the entries it has given and those on the
stack (`Walk.Toured`).  The stack is a way down the tree, and once the walk has given an entry
the nodes left on the stack are above the node of that entry.

So `Tree.topEntries` reads the nodes of the entries it lists and some above the last of them,
each once, and no others (`top_reads_no_further`).
-/

namespace Leaderboard

open ReliableStore (Sound contents)

/-! ## The reads of a walk -/

namespace WalkM

variable {α β : Type} {c : Contents} {w w' : Walk}

/-- The keys that an action of a walk reads on these contents, in their order. -/
def trace (c : Contents) (m : WalkM α) (w : Walk) : List Bytes := Dialogue.trace (m.run.run w) c

theorem Gives.trace_bind {m : WalkM α} {a : α} (h : Gives c m w a w') (f : α → WalkM β) :
    trace c (m >>= f) w = trace c m w ++ trace c (f a) w' := by
  rw [Gives] at h
  rw [trace, run_bind, Dialogue.trace_bind, h]
  rfl

theorem Gives.trace_map {m : WalkM α} {a : α} (h : Gives c m w a w') (f : α → β) :
    trace c (f <$> m) w = trace c m w := by
  rw [map_eq_pure_bind, h.trace_bind]
  exact List.append_nil _

theorem trace_ask (access : Access α) (w : Walk) :
    trace c (Walk.ask access) w = Dialogue.trace access.run c := by
  rw [trace, Walk.run_ask, Dialogue.trace_bind]
  exact List.append_nil _

end WalkM

open WalkM (Gives gives_pure gives_get gives_set gives_modify gives_ask)

namespace Tree

variable {t : Tree} {c : Contents}

/-- A node is read by one read of its record. -/
theorem trace_load (t : Tree) (k : RankKey) (c : Contents) :
    Dialogue.trace (t.load k).run c = [t.name.nodeKey k] := by
  refine congrArg (_ :: ·) ?_
  rcases c (t.name.nodeKey k) with _ | _ | ⟨b, bs⟩
  · rfl
  · rfl
  · show Dialogue.trace (decoded (t.name.nodeKey k) (Node.decode (b :: bs))).run c = []
    cases Node.decode (b :: bs) <;> rfl

/-- The pointer to the root is read by one read of its record. -/
theorem trace_root (t : Tree) (c : Contents) :
    Dialogue.trace t.root.run c = [t.name.rootKey] := by
  refine congrArg (_ :: ·) ?_
  rcases c t.name.rootKey with _ | _ | ⟨b, bs⟩
  · rfl
  · rfl
  · show Dialogue.trace (some <$> decoded t.name.rootKey (RankKey.decode (b :: bs))).run c = []
    cases RankKey.decode (b :: bs) <;> rfl

end Tree

/-! ## Ways down -/

namespace Avl

variable {m : Memory} {x : Avl} {k j : RankKey} {n : Node}

/-- A child of a node is below it. -/
theorem Stands.below_child (h : x.Stands m) (ho : x.Ordered) (hk : k ∈ x.keys) (hn : m k = some n)
    {side : Side} (hj : n.child side = some j) : x.Below j k := by
  obtain ⟨l, p, r, hsub⟩ := subtree_of_mem ho hk
  have hstands := h.subtree k
  have hordered := ho.subtree k
  rw [hsub] at hstands hordered
  obtain ⟨⟨height, hn', -⟩, -, -⟩ := hstands
  obtain ⟨-, -, hlk, hkr⟩ := ordered_node.mp hordered
  rw [hn] at hn'
  cases hn'
  rw [Below, hsub, keys_node, List.mem_append, List.mem_cons]
  cases side with
  | left =>
      have hjl : j ∈ l.keys := root_mem_keys hj
      exact ⟨.inl hjl, fun heq => RankKey.lt_irrefl k (heq ▸ hlk j hjl)⟩
  | right =>
      have hjr : j ∈ r.keys := root_mem_keys hj
      exact ⟨.inr (.inr hjr), fun heq => RankKey.lt_irrefl k (heq ▸ hkr j hjr)⟩

/-- A way down may go on to a child of its node. -/
theorem Stands.pairwise_child (h : x.Stands m) (ho : x.Ordered) (hk : k ∈ x.keys)
    (hn : m k = some n) {ks : List RankKey} (hks : (k :: ks).Pairwise x.Below) (side : Side) :
    ((n.child side).toList ++ k :: ks).Pairwise x.Below := by
  cases hj : n.child side with
  | none => exact hks
  | some j =>
      have hbelow := h.below_child ho hk hn hj
      refine List.pairwise_cons.mpr ⟨fun i hi => ?_, hks⟩
      rcases List.mem_cons.mp hi with rfl | hi
      · exact hbelow
      · exact hbelow.trans ((List.pairwise_cons.mp hks).1 i hi) ho

end Avl

namespace Walk

open WalkM (trace trace_ask)

variable {t : Tree} {c : Contents} {x : Avl} {w w' : Walk} {past ps : List Placement}
  {nodes : List RankKey} {entry : Option Placement}

/-- The nodes on the stack of a walk are stored, and below them is the cursor: together they are a
way down a tree. -/
structure Spine (t : Tree) (c : Contents) (x : Avl) (w : Walk) : Prop where
  /-- The nodes are stored. -/
  loaded : Loaded t c w
  /-- Each is below the next one. -/
  below : (w.cursor.toList ++ w.stack.map Prod.fst).Pairwise x.Below
  /-- They are nodes of the tree. -/
  mem : ∀ k ∈ w.cursor.toList ++ w.stack.map Prod.fst, k ∈ x.keys

theorem Spine.push (h : Spine t c x w) (hx : x.Stands (t.stored c)) (ho : x.Ordered) {k : RankKey}
    {n : Node} (hcursor : w.cursor = some k) (hn : t.stored c k = some n) :
    Spine t c x (w.push k n) := by
  obtain ⟨hloaded, hbelow, hmem⟩ := h
  rw [hcursor] at hbelow hmem
  have hk : k ∈ x.keys := hmem k (.head _)
  refine ⟨fun e he => ?_, hx.pairwise_child ho hk hn hbelow _, fun j hj => ?_⟩
  · rcases List.mem_cons.mp he with rfl | he
    · exact hn
    · exact hloaded e he
  · rcases List.mem_append.mp hj with hj | hj
    · exact hx.links.child_mem_keys hk hn (Option.mem_toList.mp hj)
    · exact hmem j hj

theorem trace_descend_of_none (hcursor : w.cursor = none) (n : Nat) :
    trace c (descend t n) w = [] := by
  rw [descend, gives_get.trace_bind, hcursor]
  rfl

/-- Going down, a walk reads the nodes that it puts on its stack. -/
theorem Spine.descend (h : Spine t c x w) (hx : x.Stands (t.stored c)) (ho : x.Ordered) {n : Nat}
    (hgives : Gives c (descend t n) w () w') :
    ∃ path : List RankKey, trace c (Walk.descend t n) w = path.map t.name.nodeKey ∧
      w'.stack.map Prod.fst = path.reverse ++ w.stack.map Prod.fst ∧ w'.cursor = none ∧
      w'.order = w.order ∧ w'.started = w.started ∧ Spine t c x w' := by
  induction n generalizing w with
  | zero =>
      cases hcursor : w.cursor with
      | none =>
          cases (descend_gives_of_none hcursor 0).symm.trans hgives
          exact ⟨[], trace_descend_of_none hcursor 0, rfl, hcursor, rfl, rfl, h⟩
      | some k =>
          rw [Walk.descend] at hgives
          have hfull := (gives_get.eval_bind _).symm.trans hgives
          rw [hcursor] at hfull
          cases hfull
  | succ n ih =>
      cases hcursor : w.cursor with
      | none =>
          cases (descend_gives_of_none hcursor _).symm.trans hgives
          exact ⟨[], trace_descend_of_none hcursor _, rfl, hcursor, rfl, rfl, h⟩
      | some k =>
          rw [Walk.descend] at hgives ⊢
          have hread := (gives_get.eval_bind _).symm.trans hgives
          rw [hcursor] at hread
          obtain ⟨node, w₁, hload, hmore⟩ := Gives.of_bind hread
          obtain ⟨rfl, hn⟩ := load_of_gives hload
          have hdown := ((gives_modify _).eval_bind _).symm.trans hmore
          obtain ⟨path, htrace, hstack, hrest⟩ := ih (h.push hx ho hcursor hn) hdown
          refine ⟨k :: path, ?_, ?_, hrest⟩
          · rw [gives_get.trace_bind, hcursor, hload.trace_bind, trace_ask, t.trace_load,
              (gives_modify _).trace_bind, List.map_cons, ← htrace]
            rfl
          · rw [hstack, List.reverse_cons, List.append_assoc]
            rfl

/-- Taking a node off the stack, a walk reads nothing. -/
theorem trace_pop (w : Walk) : trace c pop w = [] := by
  rw [pop, gives_get.trace_bind]
  cases w.stack <;> rfl

/-- The nodes left on the stack are above the one that was taken off. -/
theorem Spine.pop (h : Spine t c x w) (hx : x.Stands (t.stored c)) (ho : x.Ordered)
    (hcursor : w.cursor = none) (hgives : Gives c pop w entry w') :
    w.stack.map Prod.fst = entry.toList.map Prod.fst ++ w'.stack.map Prod.fst ∧
      (entry = none → w'.stack = []) ∧
      (∀ e ∈ entry, ∀ k ∈ w'.stack.map Prod.fst, x.Below e.1 k) ∧ w'.order = w.order ∧
      w'.started = w.started ∧ Spine t c x w' := by
  rw [Walk.pop] at hgives
  have htaken := (gives_get.eval_bind _).symm.trans hgives
  cases hstack : w.stack with
  | nil =>
      rw [hstack] at htaken
      cases htaken
      exact ⟨by rw [hstack]; rfl, fun _ => hstack, by simp, rfl, rfl, h⟩
  | cons top stack =>
      obtain ⟨k, n⟩ := top
      rw [hstack] at htaken
      have hset := ((gives_set _).eval_bind _).symm.trans htaken
      cases hset
      obtain ⟨hloaded, hbelow, hmem⟩ := h
      rw [hcursor, hstack] at hbelow hmem
      have hk : k ∈ x.keys := hmem k (.head _)
      have hn : t.stored c k = some n := hloaded (k, n) (hstack ▸ .head _)
      refine ⟨rfl, nofun, ?_, rfl, rfl, fun e he => hloaded e (hstack ▸ .tail _ he), ?_, ?_⟩
      · rintro _ ⟨⟩
        exact (List.pairwise_cons.mp hbelow).1
      · exact (hx.pairwise_child ho hk hn hbelow _).sublist
          ((List.sublist_cons_self _ _).append_left _)
      · intro j hj
        rcases List.mem_append.mp hj with hj | hj
        · exact hx.links.child_mem_keys hk hn (Option.mem_toList.mp hj)
        · exact hmem j (.tail _ hj)

/-! ## Walks on their way -/

/-- A walk through a tree has given some entries and has read some nodes. -/
structure Toured (t : Tree) (c : Contents) (x : Avl) (past : List Placement)
    (nodes : List RankKey) (w : Walk) : Prop where
  /-- The other entries are ahead. -/
  ahead : ∃ ps, Placed t c w ps ∧ x.visit w.order = past ++ ps
  /-- The stack is a way down the tree. -/
  spine : Spine t c x w
  /-- The nodes that were read are those of the entries and those on the stack. -/
  perm : nodes.Perm (past.map Prod.fst ++ w.stack.map Prod.fst)
  /-- Those on the stack are above that of the last entry. -/
  above : ∀ e ∈ past.getLast?, ∀ k ∈ w.stack.map Prod.fst, x.Below e.1 k

theorem trace_start (h : w.started = true) : trace c (start t) w = [] := by
  rw [start, gives_get.trace_bind, h]
  rfl

/-- Once a walk was started, what is ahead of it is known. -/
theorem Ahead.placed (h : Ahead t c w ps) (hstarted : w.started = true) : Placed t c w ps := by
  obtain ⟨w', hstart, hplaced⟩ := h
  cases (start_gives hstarted).symm.trans hstart
  exact hplaced

/-- A call of `next` reads nodes that were not read before. -/
theorem Toured.next (h : Toured t c x past nodes w) (hx : x.Stands (t.stored c))
    (ho : x.Ordered) :
    ∃ entry w' path, Gives c (next t) w entry w' ∧
      trace c (Walk.next t) w = path.map t.name.nodeKey ∧
      Toured t c x (past ++ entry.toList) (nodes ++ path) w' := by
  obtain ⟨ps, hplaced, hvisit⟩ := h.ahead
  obtain ⟨w', hnext, hahead⟩ := next_gives hplaced.ahead
  obtain ⟨_, w₀, hstart, hrest⟩ := Gives.of_bind (m := start t) hnext
  cases (start_gives hplaced.1).symm.trans hstart
  have hmore := (gives_get.eval_bind _).symm.trans hrest
  obtain ⟨_, w₁, hdescend, hpop⟩ := Gives.of_bind (m := descend t _) hmore
  obtain ⟨path, htrace, hstack, hcursor, horder, hstarted, hspine⟩ :=
    h.spine.descend hx ho hdescend
  obtain ⟨htaken, hempty, habove, horder', hstarted', hspine'⟩ := hspine.pop hx ho hcursor hpop
  refine ⟨ps.head?, w', path, hnext, ?_, ?_, hspine', ?_, ?_⟩
  · rw [Walk.next, hstart.trace_bind, trace_start hplaced.1, gives_get.trace_bind,
      hdescend.trace_bind, trace_pop, List.append_nil, ← htrace]
    rfl
  · refine ⟨ps.tail, hahead.placed ?_, ?_⟩
    · rw [hstarted', hstarted]
      exact hplaced.1
    · rw [horder', horder, hvisit, List.append_assoc]
      cases ps <;> rfl
  · rw [List.map_append, List.append_assoc, ← htaken, hstack]
    refine (h.perm.append_right path).trans ?_
    rw [List.append_assoc]
    exact (List.perm_append_comm.trans ((List.reverse_perm path).symm.append_right _)).append_left _
  · intro e he k hk
    cases hentry : ps.head? with
    | none =>
        rw [hempty hentry] at hk
        cases hk
    | some last =>
        rw [hentry, Option.toList_some, List.getLast?_concat] at he
        cases he
        exact habove e hentry k hk

/-- Some calls of `next` read each node once. -/
theorem Toured.take (h : Toured t c x past nodes w) (hx : x.Stands (t.stored c)) (ho : x.Ordered)
    (n : Nat) :
    ∃ es w' path, Gives c (take t n) w es w' ∧
      trace c (Walk.take t n) w = path.map t.name.nodeKey ∧
      Toured t c x (past ++ es) (nodes ++ path) w' := by
  induction n generalizing past nodes w with
  | zero => exact ⟨[], w, [], gives_pure [], rfl, by simpa using h⟩
  | succ n ih =>
      obtain ⟨entry, w₁, path₁, hnext, htrace₁, h₁⟩ := h.next hx ho
      rw [Walk.take, hnext.trace_bind, htrace₁]
      cases entry with
      | none => exact ⟨[], w₁, path₁, hnext.bind (gives_pure []), List.append_nil _, h₁⟩
      | some e =>
          obtain ⟨es, w₂, path₂, htake, htrace₂, h₂⟩ := ih h₁
          refine ⟨e :: es, w₂, path₁ ++ path₂, hnext.bind (htake.map (e :: ·)), ?_, ?_⟩
          · rw [htake.trace_map, htrace₂, List.map_append]
          · rw [Option.toList_some, List.append_assoc, List.append_assoc] at h₂
            exact h₂

/-- The entries ahead have the nodes on the stack. -/
theorem Stacked.mem {o : Order} {stack : List (RankKey × Node)} (h : Stacked t c o stack ps) :
    ∀ k ∈ stack.map Prod.fst, k ∈ ps.map Prod.fst := by
  induction stack generalizing ps with
  | nil => simp
  | cons top stack ih =>
      obtain ⟨k, n⟩ := top
      obtain ⟨y, qs, -, -, -, hrest, rfl⟩ := h
      intro j hj
      rw [List.map_cons, List.mem_cons] at hj
      rcases hj with rfl | hj
      · simp
      · have hmem := ih hrest j hj
        simp [List.mem_map.mp hmem]

/-- No node is read twice. -/
theorem Toured.nodup (h : Toured t c x past nodes w) (ho : x.Ordered) : nodes.Nodup := by
  obtain ⟨ps, ⟨-, y, qs, -, -, -, hstacked, hps⟩, hvisit⟩ := h.ahead
  have hall : ((past ++ ps).map Prod.fst).Nodup := by
    rw [← hvisit]
    cases w.order with
    | ascending => exact ho.nodup
    | descending =>
        rw [Avl.visit, List.map_reverse]
        exact List.nodup_reverse.mpr ho.nodup
  rw [List.map_append, List.nodup_append] at hall
  obtain ⟨hpast, -, hapart⟩ := hall
  have hstack : (w.stack.map Prod.fst).Nodup :=
    ((List.pairwise_append.mp h.spine.below).2.1).imp fun hbelow => hbelow.2
  refine h.perm.nodup_iff.mpr (List.nodup_append.mpr ⟨hpast, hstack, fun j hj k hk => ?_⟩)
  refine hapart j hj k ?_
  rw [hps, List.map_append, List.mem_append]
  exact .inr (hstacked.mem k hk)

/-- A node that was read is that of an entry, or above that of the last one. -/
theorem Toured.node_cases (h : Toured t c x past nodes w) (hpast : past = [] → x.entries = [])
    {k : RankKey} (hk : k ∈ nodes) :
    k ∈ past.map Prod.fst ∨ ∃ last ∈ past.getLast?, x.Below last.1 k := by
  rcases List.mem_append.mp (h.perm.mem_iff.mp hk) with hk | hk
  · exact .inl hk
  · cases hlast : past.getLast? with
    | some last => exact .inr ⟨last, rfl, h.above last hlast k hk⟩
    | none =>
        have hmem := h.spine.mem k (List.mem_append_right _ hk)
        rw [Avl.keys, hpast (List.getLast?_eq_none_iff.mp hlast)] at hmem
        cases hmem

/-- A walk reads no more nodes than it gives entries, but for as many as the tree is high. -/
theorem Toured.length_le (h : Toured t c x past nodes w) (ho : x.Ordered) :
    nodes.length ≤ past.length + x.height := by
  have hlength := Avl.length_le_height ho (List.pairwise_append.mp h.spine.below).2.1
    fun k hk => h.spine.mem k (List.mem_append_right _ hk)
  have hperm := h.perm.length_eq
  rw [List.length_append, List.length_map] at hperm
  omega

/-! ## Walks from the root -/

/-- A walk that has read the pointer to the root has read no nodes. -/
theorem toured_onset (h : t.Valid c x) (hheight : x.height ≤ maxDepth) (o : Order) :
    Toured t c x [] [] (onset o x.root) := by
  have hmem : ∀ k ∈ x.root.toList ++ [], k ∈ x.keys := by
    intro k hk
    rw [List.append_nil, Option.mem_toList] at hk
    exact Avl.root_mem_keys hk
  refine ⟨⟨x.visit o, ⟨rfl, x, [], rfl, h.1.stands, hheight, rfl, ?_⟩, rfl⟩, ⟨?_, ?_, hmem⟩,
    .nil, by simp⟩
  · rw [List.append_nil]
    rfl
  · simp [Loaded, onset]
  · show (x.root.toList ++ []).Pairwise x.Below
    cases x.root <;> simp

/-- The calls of a new walk read the pointer to the root first. -/
theorem trace_take_new {top : NodeRef} (hroot : t.root.eval c = (.ok top, [])) (o : Order)
    (n : Nat) :
    trace c (take t (n + 1)) { order := o } =
      t.name.rootKey :: trace c (take t (n + 1)) (onset o top) := by
  have hstart : Gives c (start t) { order := o } () (onset o top) :=
    gives_get.bind ((gives_ask hroot).bind (gives_modify _))
  have hread : trace c (start t) { order := o } = [t.name.rootKey] := by
    rw [start, gives_get.trace_bind]
    refine ((gives_ask (w := { order := o }) hroot).trace_bind _).trans ?_
    rw [trace_ask, t.trace_root]
    rfl
  have hagain : Gives c (start t) (onset o top) () (onset o top) := start_gives rfl
  rw [take, next, bind_assoc, hstart.trace_bind, hagain.trace_bind, hread, trace_start rfl]
  rfl

/-- The calls of a new walk read the pointer to the root and then the nodes of a tour. -/
theorem take_tours (h : t.Valid c x) (hheight : x.height ≤ maxDepth) (o : Order) (n : Nat) :
    ∃ nodes w,
      trace c (take t (n + 1)) { order := o } = t.name.rootKey :: nodes.map t.name.nodeKey ∧
      Toured t c x ((x.visit o).take (n + 1)) nodes w := by
  have hnew := toured_onset h hheight o
  obtain ⟨es, w, nodes, htake, htrace, htoured⟩ := hnew.take h.1.stands h.1.ordered (n + 1)
  rw [List.nil_append, List.nil_append] at htoured
  obtain rfl : es = (x.visit o).take (n + 1) := by
    obtain ⟨ps, hplaced, hvisit⟩ := hnew.ahead
    obtain ⟨w', hlisted⟩ := take_gives hplaced.ahead (n + 1)
    cases htake.symm.trans hlisted
    exact congrArg (List.take (n + 1)) hvisit.symm
  refine ⟨nodes, w, ?_, htoured⟩
  rw [trace_take_new (Tree.root_eval h.1.points h.2), htrace]

theorem trace_along {α : Type} (order : Order) (action : WalkM α) (c : Contents) :
    Dialogue.trace (along order action).run c = trace c action { order } := by
  rw [run_along, Dialogue.trace_bind]
  exact List.append_nil _

end Walk

/-- A list of the entries with the largest keys takes one read of the pointer to the root and some
reads of nodes, no two of the same.  These are the nodes of the entries that are listed and some
above the last of them.  For no entries nothing is read. -/
theorem top_reads_no_further {σ : Type} [ByteStore σ] [ReliableStore σ] (t : Tree) {store : σ}
    (hsound : Sound store) {x : Avl} (hvalid : t.Valid (contents store) x)
    (hsize : x.entries.length < UInt64.size) (n : Nat) :
    let gets := Dialogue.gets (t.topEntries n).run store
    let listed := x.entries.reverse.take n
    ((t.topEntries n).on store).1 = .ok listed ∧ listed.length = min n x.entries.length ∧
      (n = 0 → gets = []) ∧
      (0 < n → ∃ nodes : List RankKey, gets = t.name.rootKey :: nodes.map t.name.nodeKey ∧
        (nodes.map t.name.nodeKey).Nodup ∧ (∀ e ∈ listed, e.1 ∈ nodes) ∧
        (∀ k ∈ nodes, k ∈ listed.map Prod.fst ∨ ∃ last ∈ listed.getLast?, x.Below last.1 k) ∧
        nodes.length ≤ min n x.entries.length + x.height) := by
  intro gets listed
  have hheight : x.height ≤ Walk.maxDepth := Avl.height_le_maxDepth hvalid.1.balanced hsize
  have hlength : listed.length = min n x.entries.length := by simp [listed]
  have hgets : gets = WalkM.trace (contents store) (Walk.take t n) { order := .descending } :=
    (Dialogue.gets_eq _ hsound).trans (Walk.trace_along _ _ _)
  refine ⟨?_, hlength, ?_, fun hn => ?_⟩
  · rw [Access.on_fst _ hsound, Tree.topEntries_eval hvalid hheight]
  · rintro rfl
    exact hgets
  · obtain ⟨n, rfl⟩ := Nat.exists_eq_add_of_le' hn
    have ho := hvalid.1.ordered
    obtain ⟨nodes, w, htrace, htoured⟩ := Walk.take_tours hvalid hheight .descending n
    have hempty : listed = [] → x.entries = [] := by simp [listed]
    refine ⟨nodes, hgets.trans htrace, (htoured.nodup ho).map fun j k => t.name.nodeKey_inj.mp,
      fun e he => ?_, fun k hk => htoured.node_cases hempty hk, ?_⟩
    · exact htoured.perm.mem_iff.mpr (List.mem_append_left _ (List.mem_map_of_mem he))
    · rw [← hlength]
      exact htoured.length_le ho

namespace Early

/-- A store with a node and its two children. -/
def store : MemoryStore :=
  (Access.onEach ([Change.insert (.ofCount 2) "b", .insert (.ofCount 1) "a",
    .insert (.ofCount 3) "c"].map (Change.serve .sample)) {}).2

/-- The tree in the store. -/
def value : Avl :=
  .node (.node .nil (.ofCount 1) "a" .nil) (.ofCount 2) "b" (.node .nil (.ofCount 3) "c" .nil)

theorem valid : Tree.sample.Valid (contents store) value := by
  refine ⟨⟨?_, ⟨⟨2, ?_, rfl⟩, ⟨⟨1, ?_, rfl⟩, trivial, trivial⟩, ⟨1, ?_, rfl⟩, trivial, trivial⟩, ?_,
    ?_⟩, ?_⟩
  · show (contents store) TreeName.t.rootKey = some (RankKey.ofCount 2).encode
    decide +kernel
  · decide +kernel
  · decide +kernel
  · decide +kernel
  · show [RankKey.ofCount 1, .ofCount 2, .ofCount 3].Pairwise (· < ·)
    decide +kernel
  · simp [Avl.Balanced, value]
  · intro k hk
    cases hk
    rfl

end Early

open Early in
/-- The entry with the largest key takes a read of its node and one of the node above it. -/
theorem top_reads_no_further_memory :
    Tree.sample.Valid (contents store) value ∧
      Dialogue.gets (Tree.sample.topEntries 1).run store =
        [TreeName.t.rootKey, TreeName.t.nodeKey (.ofCount 2), TreeName.t.nodeKey (.ofCount 3)] ∧
      ((Tree.sample.topEntries 1).on store).1 = .ok [(.ofCount 3, "c")] ∧
      ∃ nodes : List RankKey,
        Dialogue.gets (Tree.sample.topEntries 1).run store =
          TreeName.t.rootKey :: nodes.map TreeName.t.nodeKey ∧
        (nodes.map TreeName.t.nodeKey).Nodup ∧
        ∀ k ∈ nodes, k ∈ [.ofCount 3] ∨
          ∃ last ∈ [(RankKey.ofCount 3, "c")].getLast?, value.Below last.1 k := by
  have hsound : Sound store := trivial
  obtain ⟨hreply, -, -, hreads⟩ := top_reads_no_further .sample hsound valid (by decide) 1
  obtain ⟨nodes, hgets, hnodup, -, habove, -⟩ := hreads Nat.one_pos
  refine ⟨valid, ?_, hreply, nodes, hgets, hnodup, habove⟩
  decide +kernel

end Leaderboard
