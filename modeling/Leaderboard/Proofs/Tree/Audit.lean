import Leaderboard.Proofs.Tree.Standing
import Leaderboard.Tree.Audit

/-!
# What an audit comes to

An audit of contents that hold a tree passes, and tells the number of entries and
the height of the tree (`Tree.validate_eval`).  It reads each node once
(`Tree.gather_eval`) and finds the order, the balance and the heights as they
should be (`Tree.check_eq_ok`).

On any other contents it fails (`Tree.validate_cases`).  A node that is reached a
second time ends the reading, so what has been read to the end is a tree, though
nothing is known yet of its keys and heights (`Tree.gather_links`).  That is why
the check, which goes down the pointers again, finds every node it looks for and
comes to an end (`Tree.check_cases`).
-/

namespace Leaderboard

theorem Avl.height_le_length (x : Avl) : x.height ≤ x.entries.length := by
  induction x with
  | nil => exact Nat.le_refl _
  | node l k p r ihl ihr =>
      rw [height_node, entries_node, List.length_append, List.length_cons]
      omega

namespace Tree

variable {t : Tree} {c : Contents}

/-! ## Reading the nodes -/

section

variable {nodes : Std.TreeMap RankKey Node} {key : RankKey}

theorem insert_eq_none {node : Node} {k : RankKey} :
    (nodes.insert key node)[k]? = none ↔ k ≠ key ∧ nodes[k]? = none := by
  rw [getElem?_insert]
  split
  next h => simp [h]
  next h => simp [Ne.symm h]

theorem contains_eq_false_of_getElem? (h : nodes[key]? = none) : nodes.contains key = false := by
  rw [Std.TreeMap.contains_eq_isSome_getElem?, h]
  rfl

theorem size_insert (h : nodes[key]? = none) (node : Node) :
    (nodes.insert key node).size = nodes.size + 1 := by
  rw [Std.TreeMap.size_insert, contains_eq_false_of_getElem? h, if_neg Bool.false_ne_true]

/-- There are no more nodes than keys. -/
theorem size_le_total (nodes : Std.TreeMap RankKey Node) : nodes.size ≤ RankKey.total := by
  rw [← Std.TreeMap.length_keys]
  refine RankKey.length_le_total (nodes.ordered_keys.imp ?_)
  rintro a _ hab rfl
  exact RankKey.lt_irrefl a (RankKey.compare_lt.mp hab)

theorem gather_nil (t : Tree) (n : Nat) : t.gather n [] nodes = pure nodes := by
  cases n <;> rfl

/-- A node not met before is read, and then its children are. -/
theorem gather_step {node : Node} (hn : t.stored c key = some node) (hk : nodes[key]? = none)
    (n : Nat) (pending : List RankKey) :
    (t.gather (n + 1) (key :: pending) nodes).eval c =
      (t.gather n (node.right.toList ++ (node.left.toList ++ pending))
        (nodes.insert key node)).eval c := by
  rw [gather, contains_eq_false_of_getElem? hk, if_neg Bool.false_ne_true,
    Access.eval_bind_read (load_eval hn), List.append_assoc]

/-- One step of the reading goes on with a node not met before, or it fails. -/
theorem gather_cases (t : Tree) (c : Contents) (n : Nat) (key : RankKey) (pending : List RankKey)
    (nodes : Std.TreeMap RankKey Node) :
    (∃ node, t.stored c key = some node ∧ nodes[key]? = none) ∨
      ∃ failure, (failure = .integrity (.sharedNode key) ∨ failure.Unreadable) ∧
        (t.gather (n + 1) (key :: pending) nodes).eval c = (.error failure, []) := by
  rw [gather, Std.TreeMap.contains_eq_isSome_getElem?]
  cases hk : nodes[key]? with
  | some node => exact .inr ⟨_, .inl rfl, rfl⟩
  | none =>
      rcases load_cases t c key with ⟨node, hn, -⟩ | ⟨-, failure, hfailure, hload⟩
      · exact .inl ⟨node, hn, rfl⟩
      · refine .inr ⟨failure, .inr hfailure, ?_⟩
        rw [Option.isSome_none, if_neg Bool.false_ne_true]
        exact Access.eval_bind_error hload _

end

/-- Reading a subtree leaves the nodes that the contents spell at its keys. -/
theorem gather_eval {x : Avl} (hx : x.Links (t.stored c)) (hnodup : x.keys.Nodup)
    (nodes : Std.TreeMap RankKey Node) (hnew : ∀ k ∈ x.keys, nodes[k]? = none) (n : Nat)
    (pending : List RankKey) :
    ∃ nodes' : Std.TreeMap RankKey Node,
      (t.gather (n + x.entries.length) (x.root.toList ++ pending) nodes).eval c =
        (t.gather n pending nodes').eval c ∧
      nodes'.size = nodes.size + x.entries.length ∧
      (∀ k ∈ x.keys, nodes'[k]? = t.stored c k) ∧ ∀ k ∉ x.keys, nodes'[k]? = nodes[k]? := by
  induction x generalizing nodes n pending with
  | nil => exact ⟨nodes, rfl, rfl, by simp, fun _ _ => rfl⟩
  | node l k p r ihl ihr =>
      obtain ⟨⟨height, hn⟩, hl, hr⟩ := hx
      obtain ⟨hl_nodup, hr_nodup, hkl, hkr, hlr⟩ := (Avl.nodup_fork (s := .left)).mp hnodup
      rw [Avl.keys_node] at hnew ⊢
      have hk : nodes[k]? = none := hnew k (by simp)
      let node : Node := ⟨p, l.root, r.root, height⟩
      have hinsert : ∀ j, j ≠ k → (nodes.insert k node)[j]? = nodes[j]? := by
        intro j hj
        rw [getElem?_insert, if_neg (Ne.symm hj)]
      -- the right subtree is read before the left one
      obtain ⟨nodes₁, heval₁, hsize₁, hin₁, hout₁⟩ :=
        ihr hr hr_nodup (nodes.insert k node)
          (fun j hj => (hinsert j fun h => hkr (h ▸ hj)).trans (hnew j (by simp [hj])))
          (n + l.entries.length) (l.root.toList ++ pending)
      obtain ⟨nodes₂, heval₂, hsize₂, hin₂, hout₂⟩ :=
        ihl hl hl_nodup nodes₁
          (fun j hj => (hout₁ j (hlr j hj)).trans
            ((hinsert j fun h => hkl (h ▸ hj)).trans (hnew j (by simp [hj]))))
          n pending
      refine ⟨nodes₂, ?_, ?_, ?_, ?_⟩
      · rw [← heval₂, ← heval₁, Avl.root, Option.toList_some, List.singleton_append,
          show n + (Avl.node l k p r).entries.length =
            n + l.entries.length + r.entries.length + 1 by simp; omega,
          gather_step hn hk]
      · rw [hsize₂, hsize₁, size_insert hk, Avl.entries_node, List.length_append,
          List.length_cons]
        omega
      · intro j hj
        by_cases hjl : j ∈ l.keys
        · exact hin₂ j hjl
        · rw [hout₂ j hjl]
          by_cases hjr : j ∈ r.keys
          · exact hin₁ j hjr
          · have hjk : j = k := by simpa [hjl, hjr] using hj
            rw [hout₁ j hjr, hjk, getElem?_insert, if_pos rfl, hn]
      · intro j hj
        simp only [List.mem_append, List.mem_cons, not_or] at hj
        rw [hout₂ j hj.1, hout₁ j hj.2.2, hinsert j hj.2.1]

/-- The reading of a subtree succeeds only on a tree of nodes not met before, whatever is left
to read. -/
theorem gather_links {n : Nat} {ref : NodeRef} {pending : List RankKey}
    {nodes nodes' : Std.TreeMap RankKey Node} {puts : List (Bytes × Bytes)}
    (h : (t.gather n (ref.toList ++ pending) nodes).eval c = (.ok nodes', puts)) :
    ∃ x : Avl, x.root = ref ∧ x.Links (t.stored c) ∧ x.keys.Nodup ∧
      (∀ k ∈ x.keys, nodes[k]? = none) ∧ x.entries.length ≤ n := by
  induction n using Nat.strong_induction_on generalizing ref pending nodes with
  | _ n ih =>
      cases ref with
      | none => exact ⟨.nil, rfl, trivial, List.nodup_nil, by simp, Nat.zero_le n⟩
      | some key =>
          cases n with
          | zero => cases h
          | succ n =>
              rw [Option.toList_some, List.singleton_append] at h
              rcases gather_cases t c n key pending nodes with
                ⟨node, hnode, hfresh⟩ | ⟨failure, -, hstep⟩
              · rw [gather_step hnode hfresh] at h
                -- the right subtree is read first, so the left one has none of its keys
                obtain ⟨r, hr_root, hr, hr_nodup, hr_fresh, hr_length⟩ := ih n (by omega) h
                obtain ⟨nodes₁, hright, -, hin, hout⟩ := gather_eval hr hr_nodup
                  (nodes.insert key node) hr_fresh (n - r.entries.length)
                  (node.left.toList ++ pending)
                rw [Nat.sub_add_cancel hr_length, hr_root] at hright
                rw [hright] at h
                obtain ⟨l, hl_root, hl, hl_nodup, hl_fresh, hl_length⟩ := ih _ (by omega) h
                have hlr : ∀ k ∈ l.keys, k ∉ r.keys := by
                  intro k hk hk'
                  obtain ⟨m, hm⟩ := hr.isSome hk'
                  rw [← hin k hk', hl_fresh k hk] at hm
                  cases hm
                have hl_fresh' : ∀ k ∈ l.keys, k ≠ key ∧ nodes[k]? = none := fun k hk =>
                  insert_eq_none.mp ((hout k (hlr k hk)).symm.trans (hl_fresh k hk))
                have hr_fresh' : ∀ k ∈ r.keys, k ≠ key ∧ nodes[k]? = none := fun k hk =>
                  insert_eq_none.mp (hr_fresh k hk)
                refine ⟨.node l key node.payload r, rfl, ⟨⟨node.height, ?_⟩, hl, hr⟩,
                  (Avl.nodup_fork (s := .left)).mpr ⟨hl_nodup, hr_nodup,
                    fun hk => (hl_fresh' key hk).1 rfl, fun hk => (hr_fresh' key hk).1 rfl, hlr⟩,
                  ?_, ?_⟩
                · rw [hnode, hl_root, hr_root]
                · intro k hk
                  rw [Avl.keys_node, List.mem_append, List.mem_cons] at hk
                  rcases hk with hk | rfl | hk
                  · exact (hl_fresh' k hk).2
                  · exact hfresh
                  · exact (hr_fresh' k hk).2
                · rw [Avl.entries_node, List.length_append, List.length_cons]
                  omega
              · rw [hstep] at h
                cases h

/-- The reading ends before it runs out of steps, if it has more than there are keys left. -/
theorem gather_failure {n : Nat} {pending : List RankKey} {nodes : Std.TreeMap RankKey Node}
    (hn : RankKey.total < nodes.size + n) {failure : Failure} {puts : List (Bytes × Bytes)}
    (h : (t.gather n pending nodes).eval c = (.error failure, puts)) :
    (∃ key, failure = .integrity (.sharedNode key)) ∨ failure.Unreadable := by
  induction n generalizing pending nodes with
  | zero =>
      have hsize := size_le_total nodes
      omega
  | succ n ih =>
      cases pending with
      | nil => cases h
      | cons key pending =>
          rcases gather_cases t c n key pending nodes with ⟨node, hnode, hfresh⟩ |
            ⟨failure', hfailure, hstep⟩
          · rw [gather_step hnode hfresh] at h
            refine ih ?_ h
            rw [size_insert hfresh]
            omega
          · rw [hstep] at h
            cases h
            exact hfailure.imp_left fun h => ⟨key, h⟩

/-! ## The check -/

/-- The check of a tree in order, balanced and at its heights passes. -/
theorem check_eq_ok {m : Memory} {nodes : Std.TreeMap RankKey Node} {x : Avl} (hx : x.Stands m)
    (hnodes : ∀ k ∈ x.keys, nodes[k]? = m k) (ho : x.Ordered) (hb : x.Balanced) (fuel : Nat)
    (hfuel : x.height ≤ fuel) (lower upper : NodeRef)
    (hbetween : ∀ k ∈ x.keys, Between lower upper k) :
    t.check nodes fuel x.root lower upper = .ok x.height := by
  induction x generalizing fuel lower upper with
  | nil => cases fuel <;> rfl
  | node l k p r ihl ihr =>
      obtain ⟨⟨height, hn, hh⟩, hl, hr⟩ := hx
      obtain ⟨hb₁, hb₂, hbl, hbr⟩ := hb
      rw [Avl.Ordered, Avl.keys_node, List.pairwise_append, List.pairwise_cons] at ho
      obtain ⟨hol, ⟨hkr, hor⟩, hlk⟩ := ho
      rw [Avl.keys_node] at hnodes hbetween
      rw [Avl.height_node] at hfuel hh ⊢
      cases fuel with
      | zero => omega
      | succ fuel =>
          have hk := hbetween k (by simp)
          have hleft := ihl hl (fun j hj => hnodes j (by simp [hj])) hol hbl fuel (by omega)
            lower (some k) fun j hj =>
              ⟨(hbetween j (by simp [hj])).1, fun u hu => Option.some.inj hu ▸ hlk j hj k (.head _)⟩
          have hright := ihr hr (fun j hj => hnodes j (by simp [hj])) hor hbr fuel (by omega)
            (some k) upper fun j hj =>
              ⟨fun u hu => Option.some.inj hu ▸ hkr j hj, (hbetween j (by simp [hj])).2⟩
          rw [Avl.root, check, hnodes k (by simp), hn]
          dsimp only
          rw [if_neg (not_not_intro hk), hleft, hright]
          dsimp only [bind, Except.bind]
          rw [if_neg (by omega), if_neg (not_not_intro hh)]

/-- The failures that a check of nodes can end with. -/
inductive Rejection : Failure → Prop where
  /-- A key is not between those of its ancestors. -/
  | outOfOrder (name : String) (key : RankKey) : Rejection (.integrity (.outOfOrder name key))
  /-- The heights of two siblings differ by more than one. -/
  | unbalanced (name : String) (key : RankKey) (left right : Nat) :
      Rejection (.integrity (.unbalanced name key left right))
  /-- A node does not store its height. -/
  | wrongHeight (name : String) (key : RankKey) (stored actual : Nat) :
      Rejection (.integrity (.wrongHeight name key stored actual))

/-- The check of a tree passes only if it is in order, balanced and at its heights.  Each node
is found among those that were read, and the check ends within the height of the tree. -/
theorem check_cases (t : Tree) {m : Memory} {nodes : Std.TreeMap RankKey Node} {x : Avl}
    (hx : x.Links m) (hnodes : ∀ k ∈ x.keys, nodes[k]? = m k) (fuel : Nat)
    (hfuel : x.height ≤ fuel) (lower upper : NodeRef) :
    (t.check nodes fuel x.root lower upper = .ok x.height ∧ x.Stands m ∧ x.Ordered ∧ x.Balanced ∧
        ∀ k ∈ x.keys, Between lower upper k) ∨
      ∃ failure, t.check nodes fuel x.root lower upper = .error failure ∧ Rejection failure := by
  induction x generalizing fuel lower upper with
  | nil => exact .inl ⟨by cases fuel <;> rfl, trivial, List.Pairwise.nil, trivial, by simp⟩
  | node l k p r ihl ihr =>
      obtain ⟨⟨height, hn⟩, hl, hr⟩ := hx
      rw [Avl.keys_node] at hnodes
      rw [Avl.height_node] at hfuel
      cases fuel with
      | zero => omega
      | succ fuel =>
          rw [Avl.root, check, hnodes k (by simp), hn]
          dsimp only
          by_cases hk : Between lower upper k
          case neg => exact .inr ⟨_, if_pos hk, .outOfOrder _ _⟩
          rw [if_neg (not_not_intro hk)]
          rcases ihl hl (fun j hj => hnodes j (by simp [hj])) fuel (by omega) lower (some k) with
            ⟨hleft, hl_stands, hol, hbl, hl_between⟩ | ⟨failure, hleft, hfailure⟩
          case inr =>
            rw [hleft]
            exact .inr ⟨failure, rfl, hfailure⟩
          rcases ihr hr (fun j hj => hnodes j (by simp [hj])) fuel (by omega) (some k) upper with
            ⟨hright, hr_stands, hor, hbr, hr_between⟩ | ⟨failure, hright, hfailure⟩
          case inr =>
            rw [hleft, hright]
            exact .inr ⟨failure, rfl, hfailure⟩
          rw [hleft, hright]
          dsimp only [bind, Except.bind]
          by_cases hbalance : l.height > r.height + 1 ∨ r.height > l.height + 1
          case pos => exact .inr ⟨_, if_pos hbalance, .unbalanced _ _ _ _⟩
          rw [if_neg hbalance]
          by_cases hheight : height.toNat = 1 + max l.height r.height
          case neg => exact .inr ⟨_, if_pos hheight, .wrongHeight _ _ _ _⟩
          rw [if_neg (not_not_intro hheight)]
          have hlk : ∀ j ∈ l.keys, j < k := fun j hj => (hl_between j hj).2 k rfl
          have hkr : ∀ j ∈ r.keys, k < j := fun j hj => (hr_between j hj).1 k rfl
          refine .inl ⟨rfl, ⟨⟨height, hn, hheight⟩, hl_stands, hr_stands⟩, ?_,
            ⟨by omega, by omega, hbl, hbr⟩, ?_⟩
          · exact Avl.ordered_node.mpr ⟨hol, hor, hlk, hkr⟩
          · intro j hj
            rw [Avl.keys_node, List.mem_append, List.mem_cons] at hj
            rcases hj with hj | rfl | hj
            · exact ⟨(hl_between j hj).1, fun u hu => RankKey.lt_trans (hlk j hj) (hk.2 u hu)⟩
            · exact hk
            · exact ⟨fun b hb => RankKey.lt_trans (hk.1 b hb) (hkr j hj), (hr_between j hj).2⟩

/-! ## The whole audit -/

/-- An audit of a tree that the contents hold passes. -/
theorem validate_eval {x : Avl} (h : t.Valid c x) :
    t.validate.eval c = (.ok { nodes := x.entries.length, height := x.height }, []) := by
  obtain ⟨hholds, hmade⟩ := h
  have hnodup := hholds.ordered.nodup
  have htotal := Avl.length_le_total hnodup
  obtain ⟨nodes, hgather, hsize, hin, -⟩ :=
    gather_eval hholds.stands.links hnodup ∅ (by simp) (RankKey.total + 1 - x.entries.length) []
  rw [Nat.sub_add_cancel (Nat.le_succ_of_le htotal), List.append_nil, gather_nil,
    Access.eval_pure] at hgather
  have hcheck := check_eq_ok (t := t) hholds.stands hin hholds.ordered hholds.balanced nodes.size
    (hsize ▸ x.height_le_length.trans (Nat.le_add_left ..)) none none
    fun k hk => ⟨by simp, by simp⟩
  rw [validate, Access.eval_bind_read (root_eval hholds.points hmade),
    Access.eval_bind_read hgather, hcheck, Access.eval_pure, hsize, Std.TreeMap.size_emptyc,
    Nat.zero_add]

/-- An audit of any contents passes on a valid tree, or it fails at a record that cannot be read,
at a node that two pointers lead to, or at the check of the nodes it has read. -/
theorem validate_cases (t : Tree) (c : Contents) :
    (∃ x, t.Valid c x) ∨
      ∃ failure puts, t.validate.eval c = (.error failure, puts) ∧
        (failure.Unreadable ∨ (∃ key, failure = .integrity (.sharedNode key)) ∨
          Rejection failure) := by
  rcases root_cases t c with ⟨ref, hpoints, hmade, hroot⟩ | ⟨failure, hfailure, hroot⟩
  case inr => exact .inr ⟨failure, _, Access.eval_bind_error hroot _, .inl hfailure⟩
  rw [validate, Access.eval_bind_read hroot]
  rcases hgather : (t.gather (RankKey.total + 1) ref.toList ∅).eval c with ⟨result, puts⟩
  cases result with
  | error failure =>
      have hfailure := gather_failure (by rw [Std.TreeMap.size_emptyc]; omega) hgather
      exact .inr ⟨failure, puts, Access.eval_bind_error hgather _, hfailure.symm.imp_right .inl⟩
  | ok nodes =>
      rw [← List.append_nil ref.toList] at hgather
      obtain ⟨x, rfl, hx, hnodup, -, hlength⟩ := gather_links hgather
      obtain ⟨nodes', heval, hsize, hin, -⟩ :=
        gather_eval hx hnodup ∅ (by simp) (RankKey.total + 1 - x.entries.length) []
      rw [Nat.sub_add_cancel hlength, hgather, gather_nil] at heval
      cases heval
      rw [List.append_nil] at hgather
      rw [Access.eval_bind_read hgather]
      rcases check_cases t hx hin nodes.size
        (hsize ▸ x.height_le_length.trans (Nat.le_add_left ..)) none none with
        ⟨-, hstands, hordered, hbalanced, -⟩ | ⟨failure, hcheck, hfailure⟩
      · exact .inl ⟨x, ⟨hpoints, hstands, hordered, hbalanced⟩, hmade⟩
      · rw [hcheck]
        exact .inr ⟨failure, [], rfl, .inr (.inr hfailure)⟩

/-- What an audit that passes has counted is a valid tree. -/
theorem valid_of_validate {stats : TreeStats} (h : (t.validate.eval c).1 = .ok stats) :
    ∃ x, t.Valid c x ∧ stats = { nodes := x.entries.length, height := x.height } := by
  rcases validate_cases t c with ⟨x, hx⟩ | ⟨failure, puts, heval, -⟩
  · rw [validate_eval hx] at h
    cases h
    exact ⟨x, hx, rfl⟩
  · rw [heval] at h
    cases h

end Tree

end Leaderboard
