import Leaderboard.Proofs.Checksum
import Leaderboard.Proofs.Codec.RoundTrip
import Leaderboard.Proofs.Record.Layout
import Leaderboard.Proofs.Store.Replies
import Leaderboard.Proofs.Tree.Map

/-!
# Damaged node records

A node record is damaged if bits of it are not those that were written, all of them in
the eight bytes of the checksum or all of them within 64 consecutive bits of the body
(`Node.Damaged`).  Such a record is not read: damage to the checksum makes it that of
another body, and a checksum tells bodies apart that differ by a burst
(`Node.decode_damaged`).

An operation on a tree reads nodes by `Tree.load` only, which fails if the record cannot be
decoded, and everything else gives up at a failure.  So an operation that comes upon a
damaged record tells of it (`damage_reported`).
-/

namespace Leaderboard

/-! ## Records -/

namespace Node

/-- A record is as long as that of a node and differs from it, and all the bits that differ are
among the first 64, which are the checksum, or among 64 consecutive ones of those behind. -/
structure Damaged (n : Node) (record : Bytes) : Prop where
  /-- They are as long as each other. -/
  length_eq : record.length = n.encode.length
  /-- They differ. -/
  ne : record ≠ n.encode
  /-- The bits that differ. -/
  near : ∃ first, (first = 0 ∨ 64 ≤ first) ∧ ∀ i, i < first ∨ first + 64 ≤ i →
    (Bytes.bits record)[i]? = (Bytes.bits n.encode)[i]?

/-- Bytes with another checksum in front are not read. -/
theorem decode_of_sum_ne {front content : Bytes} (hfront : front.length = 8)
    (h : UInt64.ofNat (Bytes.toNatBE front) ≠ Checksum.of content) :
    decode (front ++ content) =
      .error (.checksum (UInt64.ofNat (Bytes.toNatBE front)) (Checksum.of content)) := by
  rw [decode, Bytes.split?_append hfront]
  exact if_pos h

/-- A damaged record does not carry the checksum of its body. -/
theorem decode_damaged {n : Node} {record : Bytes} (h : n.Damaged record) :
    ∃ stored computed, stored ≠ computed ∧ decode record = .error (.checksum stored computed) := by
  have hsum : (Bytes.ofNatBE 8 (Checksum.of (body.encode n)).toNat).length = 8 :=
    Bytes.length_ofNatBE 8 _
  have hlength := h.length_eq
  rw [encode, sealed, List.length_append, hsum] at hlength
  obtain ⟨front, content, rfl, hfront⟩ : ∃ front content, record = front ++ content ∧
      front.length = 8 :=
    ⟨record.take 8, record.drop 8, (List.take_append_drop 8 record).symm, by simp; omega⟩
  have hcontent : content.length = (body.encode n).length := by
    rw [List.length_append, hfront] at hlength
    omega
  have hbits : (Bytes.bits front).length = 64 := by rw [Bytes.length_bits, hfront]
  have hbits' : (Bytes.bits (Bytes.ofNatBE 8 (Checksum.of (body.encode n)).toNat)).length = 64 := by
    rw [Bytes.length_bits, hsum]
  have hne := h.ne
  obtain ⟨first, hfirst, hnear⟩ := h.near
  rw [encode, sealed] at hne hnear
  rw [Bytes.bits_append, Bytes.bits_append] at hnear
  suffices hapart : UInt64.ofNat (Bytes.toNatBE front) ≠ Checksum.of content from
    ⟨_, _, hapart, decode_of_sum_ne hfront hapart⟩
  intro heq
  rcases hfirst with rfl | hfirst
  · -- the body is as it was, so the checksum in front is another one
    have hsame : content = body.encode n := by
      refine Bytes.bits_inj hcontent (List.ext_getElem? fun i => ?_)
      have hi := hnear (64 + i) (.inr (by omega))
      rwa [List.getElem?_append_right (by omega), List.getElem?_append_right (by omega), hbits,
        hbits', Nat.add_sub_cancel_left] at hi
    subst hsame
    exact hne (by rw [front_eq hfront heq])
  · -- the checksum in front is as it was, and the body differs by a burst
    have hsame : front = Bytes.ofNatBE 8 (Checksum.of (body.encode n)).toNat := by
      refine Bytes.bits_inj (hfront.trans hsum.symm) (List.ext_getElem? fun i => ?_)
      by_cases hi : i < 64
      · have hbit := hnear i (.inl (by omega))
        rwa [List.getElem?_append_left (by omega), List.getElem?_append_left (by omega)] at hbit
      · rw [List.getElem?_eq_none (by omega), List.getElem?_eq_none (by omega)]
    have hburst : Bytes.Burst content (body.encode n) := by
      refine ⟨hcontent, fun heq => hne (by rw [hsame, heq]), first - 64, fun i hi => ?_⟩
      have hbit := hnear (64 + i) (by omega)
      rwa [List.getElem?_append_right (by omega), List.getElem?_append_right (by omega), hbits,
        hbits', Nat.add_sub_cancel_left] at hbit
    have hstored : UInt64.ofNat (Bytes.toNatBE front) = Checksum.of (body.encode n) := by
      rw [hsame, Bytes.toNatBE_ofNatBE (Checksum.of (body.encode n)).toNat_lt]
      exact UInt64.ofNat_toNat
    exact Checksum.of_ne_of_burst hburst (heq.symm.trans hstored)

end Node

/-! ## Operations that come upon a record -/

namespace Tree

variable {t : Tree} {key : RankKey} {record : Bytes} {cause : FormatFault}

/-- The reply of a store that has a record. -/
abbrev found (record : Bytes) : Except Failure (Option Bytes) := .ok (some record)

/-- The failure that tells of a record of a node that cannot be decoded. -/
abbrev unreadable (t : Tree) (key : RankKey) (cause : FormatFault) : Failure :=
  .malformedRecord (t.name.nodeKey key) (.undecodable cause)

/-- An operation that comes upon the record fails for it. -/
abbrev Tells (t : Tree) (key : RankKey) (record : Bytes) (cause : FormatFault) {α : Type}
    (access : Access α) : Prop :=
  access.FailsOn (t.name.nodeKey key) (found record) (t.unreadable key cause)

theorem tells_root (t : Tree) (key : RankKey) (record : Bytes) (cause : FormatFault) :
    t.Tells key record cause t.root := by
  have hkey : t.name.rootKey ≠ t.name.nodeKey key := (t.name.nodeKey_ne_rootKey key).symm
  refine (Access.failsOn_get hkey).bind fun value => ?_
  split
  · exact Access.failsOn_pure _
  · exact Access.failsOn_pure _
  · refine Access.FailsOn.map ?_ some
    cases RankKey.decode _ with
    | ok k => exact Access.failsOn_pure k
    | error cause' => exact Access.failsOn_throw _

/-- Reading the record of a node that cannot be decoded fails for it. -/
theorem tells_load (hrecord : record ≠ []) (hdecode : Node.decode record = .error cause)
    (k : RankKey) : t.Tells key record cause (t.load k) := by
  obtain ⟨b, bs, rfl⟩ := List.exists_cons_of_ne_nil hrecord
  refine ⟨fun hk => ⟨.error (t.unreadable key cause), ?_, rfl⟩, fun reply => ?_⟩
  · show (decoded (t.name.nodeKey k) (Node.decode (b :: bs))).run = _
    rw [hdecode, hk]
    rfl
  · rcases reply with failure | _ | _ | ⟨b', bs'⟩
    · trivial
    · trivial
    · trivial
    · show Dialogue.EndsOn _ _ _ (decoded (t.name.nodeKey k) (Node.decode (b' :: bs'))).run
      cases Node.decode (b' :: bs') with
      | ok node => trivial
      | error cause' => trivial

section

variable (hload : ∀ k, t.Tells key record cause (t.load k))
include hload

theorem tells_searchFrom (target : RankKey) (fuel : Nat) (ref : NodeRef) :
    t.Tells key record cause (t.searchFrom target fuel ref) := by
  induction fuel generalizing ref with
  | zero =>
      cases ref with
      | none => exact Access.failsOn_pure _
      | some here => exact Access.failsOn_throw _
  | succ fuel ih =>
      cases ref with
      | none => exact Access.failsOn_pure _
      | some here =>
          refine Access.FailsOn.bind (hload here) fun node => ?_
          split
          · exact Access.failsOn_pure _
          · exact ih _
          · exact ih _

theorem tells_search (target : RankKey) : t.Tells key record cause (t.search target) :=
  (t.tells_root key record cause).bind fun root => tells_searchFrom hload target t.reach root

theorem session_tells : t.DescentClosed fun _ m =>
    SessionM.FailsOn (t.name.nodeKey key) (found record) (t.unreadable key cause) m where
  pure := SessionM.failsOn_pure
  bind h hf := SessionM.FailsOn.bind h hf
  fetch k := by
    refine SessionM.failsOn_get.bind fun s => ?_
    split
    · exact SessionM.failsOn_pure _
    · exact (SessionM.failsOn_lift (hload k)).bind fun node =>
        (SessionM.failsOn_modify _).bind fun _ => SessionM.failsOn_pure _
  store _ _ := SessionM.failsOn_modify _
  discard _ := SessionM.failsOn_modify _
  fault _ := SessionM.failsOn_throw _
  endless := SessionM.failsOn_throw _

omit hload in
theorem write_tells : t.WriteClosed fun _ access => t.Tells key record cause access where
  pure := Access.failsOn_pure
  bind h hf := Access.FailsOn.bind h hf
  putNode _ := Access.failsOn_put _
  putRoot := Access.failsOn_put _

theorem tells_insert (target : RankKey) (payload : String) :
    t.Tells key record cause (t.insert target payload) := by
  rw [insert_eq]
  exact write_tells.conclude (t.tells_root key record cause) fun root =>
    (session_tells hload).inserting target payload root {}

theorem tells_delete (target : RankKey) : t.Tells key record cause (t.delete target) := by
  rw [delete_eq]
  exact write_tells.conclude (t.tells_root key record cause) fun root =>
    (session_tells hload).deleting target root {}

theorem walk_tells : t.WalkClosed fun _ m =>
    WalkM.FailsOn (t.name.nodeKey key) (found record) (t.unreadable key cause) m where
  pure := WalkM.failsOn_pure
  bind h hf := WalkM.FailsOn.bind h hf
  get := WalkM.failsOn_get
  set := WalkM.failsOn_set
  modify := WalkM.failsOn_modify
  root := WalkM.failsOn_ask (t.tells_root key record cause)
  load k := WalkM.failsOn_ask (hload k)
  fault _ := WalkM.failsOn_throw _

theorem tells_topEntries (n : Nat) : t.Tells key record cause (t.topEntries n) :=
  ((walk_tells hload).take n).along .descending

theorem tells_top (n : Nat) : t.Tells key record cause (t.top n) :=
  (tells_topEntries hload n).bind fun _ => Access.failsOn_pure _

theorem tells_entries : t.Tells key record cause t.entries :=
  ((walk_tells hload).drain t.reach).along .ascending

end

/-- Whatever the store, if it replies with the record to the read of the node at a key, the
operation fails and tells of the record. -/
def Reports (t : Tree) (key : RankKey) (record : Bytes) (cause : FormatFault) {α : Type}
    (access : Access α) : Prop :=
  ∀ {σ : Type} [ByteStore σ] (store : σ),
    (t.name.nodeKey key, found record) ∈ Dialogue.replies access.run store →
      (access.on store).1 = .error (t.unreadable key cause)

theorem Tells.reports {α : Type} {access : Access α} (h : t.Tells key record cause access) :
    t.Reports key record cause access := fun _ => h.on_eq

end Tree

/-- A damaged record of a node is not decoded, since it does not carry the checksum of its body.
So searches, inserts, deletes, the calls of a walk and whole walks that load it as the record of
a node report it as malformed. -/
theorem damage_reported (n : Node) {record : Bytes} (h : n.Damaged record) :
    ∃ stored computed, stored ≠ computed ∧
      Node.decode record = .error (.checksum stored computed) ∧
      ∀ (t : Tree) (key : RankKey),
        (∀ target, t.Reports key record (.checksum stored computed) (t.search target)) ∧
        (∀ target payload,
          t.Reports key record (.checksum stored computed) (t.insert target payload)) ∧
        (∀ target, t.Reports key record (.checksum stored computed) (t.delete target)) ∧
        (∀ {σ : Type} [ByteStore σ] (store : σ) (w : Walk),
          (t.name.nodeKey key, .ok (some record)) ∈ ((Walk.next t).run.run w).replies store →
            (((Walk.next t).run.run w).run store).1.1 =
              .error (.malformedRecord (t.name.nodeKey key)
                (.undecodable (.checksum stored computed)))) ∧
        (∀ k, t.Reports key record (.checksum stored computed) (t.topEntries k)) ∧
        (∀ k, t.Reports key record (.checksum stored computed) (t.top k)) ∧
        t.Reports key record (.checksum stored computed) t.entries := by
  obtain ⟨stored, computed, hne, hdecode⟩ := Node.decode_damaged h
  refine ⟨stored, computed, hne, hdecode, fun t key => ?_⟩
  have hrecord : record ≠ [] := by
    intro hnil
    have hlength := h.length_eq
    rw [hnil] at hlength
    exact Node.encode_ne_nil n (List.eq_nil_of_length_eq_zero hlength.symm)
  have hload : ∀ k, t.Tells key record (.checksum stored computed) (t.load k) :=
    Tree.tells_load hrecord hdecode
  exact ⟨fun target => (Tree.tells_search hload target).reports,
    fun target payload => (Tree.tells_insert hload target payload).reports,
    fun target => (Tree.tells_delete hload target).reports,
    fun store w hmem => ((Tree.walk_tells hload).next w).of_mem_replies hmem,
    fun k => (Tree.tells_topEntries hload k).reports, fun k => (Tree.tells_top hload k).reports,
    (Tree.tells_entries hload).reports⟩

/-- The last bit of a record is flipped: a search that comes to its node reports it. -/
theorem damage_reported_flip :
    let key : RankKey := .make 1 0 .newerFirst
    let record := (Node.leaf "alice").encode.dropLast ++ [1]
    let store : MemoryStore :=
      { records := ((∅ : Std.TreeMap Bytes Bytes).insert TreeName.t.rootKey key.encode).insert
          (TreeName.t.nodeKey key) record }
    (Node.leaf "alice").Damaged record ∧ ∃ stored computed, stored ≠ computed ∧
      (((TreeName.t.tree true).search key).on store).1 =
        .error (.malformedRecord (TreeName.t.nodeKey key)
          (.undecodable (.checksum stored computed))) := by
  intro key record store
  have hdamaged : (Node.leaf "alice").Damaged record := by
    refine ⟨by decide +kernel, by decide +kernel, 152, .inr (by decide), fun i hi => ?_⟩
    have hlength : (Bytes.bits record).length = 216 := by decide +kernel
    have hlength' : (Bytes.bits (Node.leaf "alice").encode).length = 216 := by decide +kernel
    have hfront : (Bytes.bits record).take 152 =
        (Bytes.bits (Node.leaf "alice").encode).take 152 := by decide +kernel
    rcases hi with hi | hi
    · have hbit := congrArg (·[i]?) hfront
      simpa [List.getElem?_take, hi] using hbit
    · rw [List.getElem?_eq_none (by omega), List.getElem?_eq_none (by omega)]
  obtain ⟨stored, computed, hne, -, hreports⟩ := damage_reported (Node.leaf "alice") hdamaged
  refine ⟨hdamaged, stored, computed, hne, ?_⟩
  refine (hreports (TreeName.t.tree true) key).1 key store ?_
  decide +kernel

end Leaderboard
