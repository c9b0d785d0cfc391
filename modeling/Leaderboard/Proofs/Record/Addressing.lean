import Leaderboard.Proofs.Record.Layout
import Mathlib.Data.List.TakeDrop
import Mathlib.Data.List.TakeWhile

/-!
# One record for each store key

`TreeName.Stores` lists the records that a tree may have, each with its store key.  A
store key is parsed by cutting it at its first slash, which is the one behind the
name of the tree, since no name has a slash (`Address.parse_eq`).  What follows tells
the kind by its first bytes and the record by the others, whatever bytes they are
(`Address.parseTail_tail`).  So every record is parsed from its store key, and
records of one store key are the same, also if they are of two trees
(`keys_tell_records`).

Conversely a store key that is parsed is that of the record it is parsed as
(`Address.parse_eq_some`), and names a tree of that record, with one exception: an
empty name is parsed, though no tree may have it (`parsed_unless_unnamed`,
`unnamed_root_parsed`).
-/

namespace Leaderboard

/-! ## Names and rank keys -/

/-- A text that may be the name of a tree is that name. -/
theorem TreeName.ofString_eq_ok {s : String} {t : TreeName} :
    ofString s = .ok t ↔ t.text = s := by
  rw [ofString]
  constructor
  · intro h
    split at h
    · cases h
      rfl
    · cases h
  · rintro rfl
    rw [dif_pos ⟨t.nonempty, t.noSlash⟩]

/-- A text without a slash is the name of a tree unless it is empty. -/
theorem TreeName.exists_ofString {s : String} (h : '/' ∉ s.toList) :
    s = "" ∨ ∃ t, ofString s = .ok t := by
  by_cases hempty : s.toList = []
  · exact .inl (String.toList_inj.mp hempty)
  · exact .inr ⟨⟨s, hempty, h⟩, dif_pos ⟨hempty, h⟩⟩

/-- A rank key that a tree is used with: it was made for an entity or was read. -/
inductive RankKey.Built : RankKey → Prop
  /-- It is the key of a rank. -/
  | make (count : Int64) (tieBreaker : UInt64) (policy : TieBreak) :
      Built (make count tieBreaker policy)
  /-- It was read on its own. -/
  | decode {bs : Bytes} {k : RankKey} (h : decode bs = .ok k) : Built k

/-- These are the keys that have their separator. -/
theorem RankKey.built_iff {k : RankKey} : k.Built ↔ k.Made := by
  constructor
  · intro h
    cases h with
    | make count tieBreaker policy => exact made_make count tieBreaker policy
    | decode h => exact (decode_eq_ok h).1
  · exact fun h => .decode (decode_encode h)

namespace Address

/-! ## The parts of a store key -/

/-- The name of the tree. -/
def tree : Address → String
  | root tree => tree
  | node tree _ => tree
  | entity tree _ => tree

/-- What follows the name and the slash. -/
def tail : Address → Bytes
  | root _ => rootMark
  | node _ key => nodeMark ++ key.encode
  | entity _ name => entityMark ++ Bytes.ofString name

/-- The rank key of a node has its separator. -/
def Made : Address → Prop
  | root _ => True
  | node _ key => key.Made
  | entity _ _ => True

theorem encode_eq (a : Address) : a.encode = Bytes.ofString a.tree ++ slash :: a.tail := by
  cases a <;> rfl

theorem after?_append (mark bs : Bytes) : after? mark (mark ++ bs) = some bs := by
  induction mark with
  | nil => rfl
  | cons m mark ih => rw [List.cons_append, after?, if_pos rfl, ih]

theorem after?_eq_some {mark bs rest : Bytes} (h : after? mark bs = some rest) :
    bs = mark ++ rest := by
  induction mark generalizing bs with
  | nil =>
      cases h
      rfl
  | cons m mark ih =>
      cases bs with
      | nil => cases h
      | cons b bs =>
          rw [after?] at h
          split at h
          · rename_i heq
            rw [heq, ih h, List.cons_append]
          · cases h

/-! ## What follows the name -/

/-- A record is read from what follows the name. -/
theorem parseTail_tail {a : Address} (h : a.Made) : parseTail a.tree a.tail = some a := by
  cases a with
  | root tree => rfl
  | node tree key =>
      have hroot : nodeMark ++ key.encode ≠ rootMark := by
        intro heq
        cases heq
      rw [tail, parseTail, if_neg hroot, after?_append]
      simp [RankKey.decode_encode h, Except.toOption, Address.tree]
  | entity tree name =>
      have hroot : entityMark ++ Bytes.ofString name ≠ rootMark := by
        intro heq
        cases heq
      have hnode : after? nodeMark (entityMark ++ Bytes.ofString name) = none := rfl
      rw [tail, parseTail, if_neg hroot, hnode, after?_append]
      simp [Address.tree]

/-- Whatever is read as a record is what follows the name for this record. -/
theorem parseTail_eq_some {tree : String} {bs : Bytes} {a : Address}
    (h : parseTail tree bs = some a) : a.tree = tree ∧ a.Made ∧ a.tail = bs := by
  rw [parseTail] at h
  split at h
  · rename_i hroot
    cases h
    exact ⟨rfl, trivial, hroot.symm⟩
  · split at h
    · rename_i bytes hnode
      cases hkey : RankKey.decode bytes with
      | error fault =>
          rw [hkey] at h
          cases h
      | ok key =>
          rw [hkey] at h
          cases h
          obtain ⟨hmade, rfl⟩ := RankKey.decode_eq_ok hkey
          exact ⟨rfl, hmade, (after?_eq_some hnode).symm⟩
    · split at h
      · rename_i bytes hentity
        obtain ⟨name, hname, rfl⟩ := Option.map_eq_some_iff.mp h
        obtain rfl := Bytes.ofString_of_toString? hname
        exact ⟨rfl, trivial, (after?_eq_some hentity).symm⟩
      · cases h

/-! ## The first slash -/

/-- A store key is cut at its first slash. -/
theorem parse_eq {name : Bytes} (h : slash ∉ name) (tail : Bytes) :
    parse (name ++ slash :: tail) = (Bytes.toString? name).bind (parseTail · tail) := by
  have hname : ∀ b ∈ name, decide (b ≠ slash) := fun b hb =>
    decide_eq_true fun heq => h (heq ▸ hb)
  have hspan : (name ++ slash :: tail).span (· ≠ slash) = (name, slash :: tail) := by
    rw [List.span_eq_takeWhile_dropWhile, List.takeWhile_append_of_pos hname,
      List.dropWhile_append_of_pos hname]
    simp
  rw [parse, hspan]

/-- Bytes without a slash are no store key. -/
theorem parse_of_notMem {raw : Bytes} (h : slash ∉ raw) : parse raw = none := by
  have hraw : ∀ b ∈ raw, decide (b ≠ slash) := fun b hb => decide_eq_true fun heq => h (heq ▸ hb)
  have hspan : raw.span (· ≠ slash) = (raw, []) := by
    rw [List.span_eq_takeWhile_dropWhile, List.takeWhile_eq_self_iff.mpr hraw,
      List.dropWhile_eq_nil_iff.mpr hraw]
  rw [parse, hspan]

/-- A record of a name without a slash is parsed from its store key. -/
theorem parse_encode {a : Address} (hname : '/' ∉ a.tree.toList) (hmade : a.Made) :
    parse a.encode = some a := by
  have hbytes : slash ∉ Bytes.ofString a.tree := fun h => hname (Bytes.slash_mem_ofString.mp h)
  rw [encode_eq, parse_eq hbytes, Bytes.toString?_ofString]
  exact parseTail_tail hmade

/-- A store key that is parsed is that of the record it is parsed as. -/
theorem parse_eq_some {raw : Bytes} {a : Address} (h : parse raw = some a) :
    '/' ∉ a.tree.toList ∧ a.Made ∧ a.encode = raw := by
  by_cases hslash : slash ∈ raw
  · obtain ⟨name, rest, rfl, hname⟩ := List.eq_append_cons_of_mem hslash
    rw [parse_eq hname] at h
    obtain ⟨text, htext, htail⟩ := Option.bind_eq_some_iff.mp h
    obtain ⟨rfl, hmade, rfl⟩ := parseTail_eq_some htail
    obtain rfl := Bytes.ofString_of_toString? htext
    exact ⟨fun hmem => hname (Bytes.slash_mem_ofString.mpr hmem), hmade, encode_eq a⟩
  · rw [parse_of_notMem hslash] at h
    cases h

end Address

/-! ## The records of a tree -/

/-- The records that a tree may have, with their store keys. -/
inductive TreeName.Stores (t : TreeName) : Address → Bytes → Prop
  /-- The pointer to its root. -/
  | root : Stores t (.root t.text) t.rootKey
  /-- The node of a rank key. -/
  | node {key : RankKey} (h : key.Built) : Stores t (.node t.text key) (t.nodeKey key)
  /-- The rank key of an entity, whatever the entity is called. -/
  | entity (name : String) : Stores t (.entity t.text name) (t.entityKey name)

namespace TreeName

variable {t : TreeName} {a : Address} {key : Bytes}

theorem stores_iff : t.Stores a key ↔ a.tree = t.text ∧ a.Made ∧ a.encode = key := by
  constructor
  · intro h
    cases h with
    | root => exact ⟨rfl, trivial, rfl⟩
    | node h => exact ⟨rfl, RankKey.built_iff.mp h, rfl⟩
    | entity name => exact ⟨rfl, trivial, rfl⟩
  · rintro ⟨htree, hmade, rfl⟩
    cases a with
    | root tree =>
        obtain rfl : tree = t.text := htree
        exact .root
    | node tree key =>
        obtain rfl : tree = t.text := htree
        exact .node (RankKey.built_iff.mpr hmade)
    | entity tree name =>
        obtain rfl : tree = t.text := htree
        exact .entity name

theorem Stores.parse (h : t.Stores a key) : Address.parse key = some a := by
  obtain ⟨htree, hmade, rfl⟩ := stores_iff.mp h
  exact Address.parse_encode (htree ▸ t.noSlash) hmade

end TreeName

/-- Two records, of one tree or of two, have one store key just if they are the same record of
the same tree, and a record is parsed from its store key. -/
theorem keys_tell_records {t u : TreeName} {a b : Address} {key key' : Bytes}
    (ha : t.Stores a key) (hb : u.Stores b key') :
    (key = key' ↔ t = u ∧ a = b) ∧ Address.parse key = some a := by
  refine ⟨⟨?_, ?_⟩, ha.parse⟩
  · rintro rfl
    obtain rfl : a = b := Option.some.inj (ha.parse.symm.trans hb.parse)
    have htext := (TreeName.stores_iff.mp ha).1.symm.trans (TreeName.stores_iff.mp hb).1
    exact ⟨TreeName.eq_of_text htext, rfl⟩
  · rintro ⟨rfl, rfl⟩
    exact (TreeName.stores_iff.mp ha).2.2.symm.trans (TreeName.stores_iff.mp hb).2.2

/-- Two trees whose names and entities are called like the marks of records. -/
theorem keys_tell_records_marks :
    let t : TreeName := ⟨"e", by decide, by decide⟩
    let u : TreeName := ⟨"n", by decide, by decide⟩
    t.entityKey "n/root" ≠ u.rootKey ∧
      Address.parse (t.entityKey "n/root") = some (.entity "e" "n/root") := by
  intro t u
  have ht : t.Stores (.entity "e" "n/root") (t.entityKey "n/root") := .entity "n/root"
  have hu : u.Stores (.root "n") u.rootKey := .root
  obtain ⟨hkeys, hparse⟩ := keys_tell_records ht hu
  refine ⟨fun heq => ?_, hparse⟩
  cases (hkeys.mp heq).2

/-- A store key that is parsed is that of a record that a tree may have, or that of a record
whose tree has no name. -/
theorem parsed_unless_unnamed (raw : Bytes) (a : Address) :
    Address.parse raw = some a ↔
      (∃ t, TreeName.ofString a.tree = .ok t ∧ t.Stores a raw) ∨
        a.tree = "" ∧ a.Made ∧ a.encode = raw := by
  constructor
  · intro h
    obtain ⟨hname, hmade, hencode⟩ := Address.parse_eq_some h
    obtain hempty | ⟨t, ht⟩ := TreeName.exists_ofString hname
    · exact .inr ⟨hempty, hmade, hencode⟩
    · have htext := (TreeName.ofString_eq_ok.mp ht).symm
      exact .inl ⟨t, ht, TreeName.stores_iff.mpr ⟨htext, hmade, hencode⟩⟩
  · rintro (⟨t, -, hstores⟩ | ⟨hempty, hmade, rfl⟩)
    · exact hstores.parse
    · refine Address.parse_encode ?_ hmade
      rw [hempty]
      exact List.not_mem_nil

/-- The pointer to the root of a tree without a name is parsed, and there is no such tree. -/
theorem unnamed_root_parsed :
    Address.parse [0x2f, 0x72, 0x6f, 0x6f, 0x74] = some (.root "") ∧
      TreeName.ofString "" = .error (.invalidTreeName "") := by
  decide +kernel

end Leaderboard
