import Leaderboard.Proofs.Codec.RoundTrip

/-!
# One record for each node

A node has one record and a record has one node (`records_bijective`).  The tags,
lengths and texts of a body can be written in one way only, and nothing may be left
after it.

Since a body is read from the front of any bytes, no body is the beginning of another
one (`Codec.ReadsBack.eq_of_prefix`).  So a body that is cut short or made longer is no
body, and a fresh checksum does not help (`Node.decode_sealed_of_prefix`).
-/

namespace Leaderboard

/-- If values are read from the front of any bytes, no encoding is the beginning of another. -/
theorem Codec.ReadsBack.eq_of_prefix {α : Type} {c : Codec α} {Kind : α → Prop}
    (hc : c.ReadsBack Kind) {a b : α} (ha : Kind a) (hb : Kind b)
    (h : c.encode a <+: c.encode b) : a = b := by
  obtain ⟨rest, hrest⟩ := h
  have hread := hc a ha rest
  rw [hrest, ← List.append_nil (c.encode b), hc b hb []] at hread
  cases hread
  rfl

namespace Node

/-- A body under its checksum is read just if it is that of a node. -/
theorem decode_sealed_eq_ok {content : Bytes} {n : Node} :
    decode (sealed content) = .ok n ↔ Codec.Fits n.payload ∧ content = body.encode n := by
  rw [decode_sealed, Codec.read_eq_ok]
  constructor
  · intro h
    simpa using body_readsOnly h
  · rintro ⟨hfits, rfl⟩
    simpa using body_readsBack n hfits []

/-- A body that was cut short or made longer is not read, whatever its checksum. -/
theorem decode_sealed_of_prefix {n : Node} {content : Bytes} (hn : Codec.Fits n.payload)
    (hne : content ≠ body.encode n) (h : content <+: body.encode n ∨ body.encode n <+: content) :
    ∃ fault, decode (sealed content) = .error fault := by
  cases hdecode : decode (sealed content) with
  | error fault => exact ⟨fault, rfl⟩
  | ok m =>
      obtain ⟨hm, rfl⟩ := decode_sealed_eq_ok.mp hdecode
      have hmn : m = n := by
        rcases h with h | h
        · exact body_readsBack.eq_of_prefix hm hn h
        · exact (body_readsBack.eq_of_prefix hn hm h).symm
      exact absurd (congrArg body.encode hmn) hne

end Node

/-- Nodes are read back from their records, and only from these: no record is that of two nodes,
no node is read from two records, and bytes under a fresh checksum are read just if they are the
body of a node, which no beginning and no extension of a body is. -/
theorem records_bijective :
    (∀ n : Node, Codec.Fits n.payload → Node.decode n.encode = .ok n) ∧
    (∀ (record : Bytes) (n : Node), Node.decode record = .ok n →
      Codec.Fits n.payload ∧ n.encode = record) ∧
    (∀ n m : Node, Codec.Fits n.payload → Codec.Fits m.payload → n.encode = m.encode → n = m) ∧
    (∀ (record record' : Bytes) (n : Node), Node.decode record = .ok n →
      Node.decode record' = .ok n → record = record') ∧
    (∀ (content : Bytes) (n : Node), Node.decode (Node.sealed content) = .ok n ↔
      Codec.Fits n.payload ∧ content = Node.body.encode n) ∧
    ∀ (n : Node) (content : Bytes), Codec.Fits n.payload → content ≠ Node.body.encode n →
      (content <+: Node.body.encode n ∨ Node.body.encode n <+: content) →
        ∃ fault, Node.decode (Node.sealed content) = .error fault := by
  refine ⟨fun n => Node.decode_encode, fun record n => Node.decode_eq_ok, ?_, ?_,
    fun content n => Node.decode_sealed_eq_ok, fun n content => Node.decode_sealed_of_prefix⟩
  · intro n m hn hm h
    have hread := Node.decode_encode hn
    rw [h, Node.decode_encode hm] at hread
    cases hread
    rfl
  · intro record record' n h h'
    rw [← (Node.decode_eq_ok h).2, ← (Node.decode_eq_ok h').2]

/-- A node whose child has another byte in the place of the separator. -/
theorem records_bijective_crooked :
    let n : Node :=
      { payload := "é", left := some { count := -1, separator := 0x30, tie := 7 }, height := 2 }
    Node.decode n.encode = .ok n ∧ (∀ record, Node.decode record = .ok n → record = n.encode) ∧
      (∃ fault, Node.decode (Node.sealed (Node.body.encode n).dropLast) = .error fault) ∧
      ∃ fault, Node.decode (Node.sealed (Node.body.encode n ++ [0])) = .error fault := by
  intro n
  have hfits : Codec.Fits n.payload := by decide
  have hread := records_bijective.1 n hfits
  have hrejects := records_bijective.2.2.2.2.2 n
  refine ⟨hread, fun record h => records_bijective.2.2.2.1 record n.encode n h hread, ?_, ?_⟩
  · refine hrejects _ hfits (fun h => ?_) (.inl (List.dropLast_prefix _))
    have hlength := congrArg List.length h
    revert hlength
    decide +kernel
  · refine hrejects _ hfits (fun h => ?_) (.inr (List.prefix_append _ _))
    simpa using congrArg List.length h

end Leaderboard
