import Leaderboard.Rank

/-!
# Settings

A ranking and a durable store have settings.  They can be written as bytes, and
read from a `Datum`, a value as found in a settings file.

Settings are read from named fields, of which missing ones keep their defaults
and unknown ones are passed over, or from a list of the fields in their order,
where the last ones may be missing.  A field of the wrong kind refuses the
whole, and so does a list that is too long.
-/

namespace Leaderboard

/-! ## Values of a settings file -/

/-- A value of a settings file. -/
inductive Datum where
  /-- No value. -/
  | null
  /-- A truth value. -/
  | truth (b : Bool)
  /-- A whole number that is not negative. -/
  | whole (n : Nat)
  /-- Any other number. -/
  | number
  /-- A text. -/
  | text (s : String)
  /-- A list of values. -/
  | list (items : List Datum)
  /-- Named values.  Of two with the same name the later one counts. -/
  | fields (entries : List (String × Datum))

namespace Datum

/-- Reads a truth value. -/
def truth? : Datum → Option Bool
  | truth b => some b
  | _ => none

/-- Reads a word of eight bytes. -/
def word? : Datum → Option UInt64
  | whole n => if n < UInt64.size then some (UInt64.ofNat n) else none
  | _ => none

/-- Reads a text. -/
def text? : Datum → Option String
  | text s => some s
  | _ => none

/-- Reads one of some named alternatives: its name, or its name with no value. -/
def alternative? {α : Type} (names : List (String × α)) : Datum → Option α
  | text name => names.lookup name
  | fields [(name, null)] => names.lookup name
  | _ => none

/-- The values of fields given in order: each is a value, or missing. -/
def arrange? (names : List String) : Datum → Option (List (Option Datum))
  | fields entries => some (names.map fun name => entries.reverse.lookup name)
  | list items =>
      if items.length ≤ names.length then
        some (items.map some ++ List.replicate (names.length - items.length) none)
      else none
  | _ => none

/-- Reads a field, which has a default if it is missing. -/
def field? {α : Type} (read : Datum → Option α) (default : α) : Option Datum → Option α
  | none => some default
  | some d => read d

end Datum

/-! ## Settings of a ranking -/

/-- The settings of a ranking. -/
structure IndexSettings where
  /-- How entities with equal counts are ordered. -/
  tieBreak : TieBreak := .olderFirst
  /-- The number of records that a cached ranking keeps at hand. -/
  cacheCapacity : UInt64 := 18000
  /-- Whether the record of a removed node is emptied. -/
  tombstones : Bool := true
deriving DecidableEq, Repr

namespace IndexSettings

/-- Settings as bytes. -/
def codec : Codec IndexSettings :=
  (TieBreak.codec.pair (Codec.u64.pair Codec.truth)).map
    (fun (tieBreak, cacheCapacity, tombstones) => { tieBreak, cacheCapacity, tombstones })
    (fun s => (s.tieBreak, s.cacheCapacity, s.tombstones))

/-- The names of the policies. -/
def policies : List (String × TieBreak) :=
  [("OlderFirst", .olderFirst), ("NewerFirst", .newerFirst)]

/-- Reads settings. -/
def ofDatum? (d : Datum) : Option IndexSettings := do
  let default : IndexSettings := {}
  match ← d.arrange? ["tie_break", "cache_capacity", "tombstones"] with
  | [tieBreak, cacheCapacity, tombstones] =>
      pure {
        tieBreak := ← Datum.field? (Datum.alternative? policies) default.tieBreak tieBreak
        cacheCapacity := ← Datum.field? Datum.word? default.cacheCapacity cacheCapacity
        tombstones := ← Datum.field? Datum.truth? default.tombstones tombstones }
  | _ => none

end IndexSettings

/-! ## Settings of a durable store -/

/-- The settings of a durable store. -/
structure StoreSettings where
  /-- The path of the directory, which need not be text. -/
  directory : Bytes := Bytes.ofString "./rankdb"
  /-- Whether every put is made durable before it returns. -/
  syncOnWrite : Bool := false
  /-- The capacity of the buffer in front of the log. -/
  bufferSize : UInt64 := 65536
deriving DecidableEq, Repr

namespace StoreSettings

/-- Settings as bytes, with the path as a text. -/
def codec : Codec StoreSettings :=
  (Codec.text.pair (Codec.truth.pair Codec.u64)).map
    (fun (path, syncOnWrite, bufferSize) =>
      { directory := Bytes.ofString path, syncOnWrite, bufferSize })
    (fun s => ((Bytes.toString? s.directory).getD "", s.syncOnWrite, s.bufferSize))

/-- The bytes of settings; a path that is not text has none. -/
def encode (s : StoreSettings) : Except FormatFault Bytes :=
  if (Bytes.toString? s.directory).isSome then .ok (codec.encode s) else .error .pathNotText

/-- Reads settings. -/
def ofDatum? (d : Datum) : Option StoreSettings := do
  let default : StoreSettings := {}
  match ← d.arrange? ["dir", "sync_on_write", "buffer_size"] with
  | [directory, syncOnWrite, bufferSize] =>
      let readPath := fun d => (Datum.text? d).map Bytes.ofString
      pure {
        directory := ← Datum.field? readPath default.directory directory
        syncOnWrite := ← Datum.field? Datum.truth? default.syncOnWrite syncOnWrite
        bufferSize := ← Datum.field? Datum.word? default.bufferSize bufferSize }
  | _ => none

end StoreSettings

end Leaderboard
