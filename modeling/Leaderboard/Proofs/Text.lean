import Leaderboard.Text.Escaped
import Leaderboard.Text.Quoted
import Mathlib.Algebra.Group.Nat.Defs

/-!
# Shown text is read back

Bytes and characters that are shown between double quotes have codes from which they are read
back, one after the other, whatever follows (`Escaped.read_byte`, `Quoted.read_char`).  So no
two byte strings are shown alike, and no two texts are (`Escaped.bytes_inj`,
`Quoted.flatMap_char_inj`).

A byte string is shown in printable ASCII (`Escaped.printable_bytes`).  A text is not, but each
of its double quotes comes right after a backslash (`Quoted.guarded_flatMap`), so the quote that
ends it is told from those inside.
-/

namespace Leaderboard

/-- Codes that are read back from the front of a text tell apart the lists that they spell. -/
theorem flatMap_inj_of_read {α : Type} {code : α → List Char}
    {read : List Char → Option (α × List Char)}
    (hread : ∀ a rest, read (code a ++ rest) = some (a, rest)) (hnil : read [] = none)
    {as bs : List α} (h : as.flatMap code = bs.flatMap code) : as = bs := by
  have hcons : ∀ a as, read ((a :: as).flatMap code) = some (a, as.flatMap code) :=
    fun a as => hread a _
  induction as generalizing bs with
  | nil =>
      cases bs with
      | nil => rfl
      | cons b bs =>
          have hb := hcons b bs
          rw [← h, List.flatMap_nil, hnil] at hb
          cases hb
  | cons a as ih =>
      have ha := hcons a as
      cases bs with
      | nil =>
          rw [h, List.flatMap_nil, hnil] at ha
          cases ha
      | cons b bs =>
          rw [h, hcons b bs] at ha
          obtain ⟨rfl, hrest⟩ : b = a ∧ bs.flatMap code = as.flatMap code := by simpa using ha
          rw [ih hrest.symm]

/-! ## Hexadecimal digits -/

namespace Hex

/-- The number that some digits spell. -/
def number (cs : List Char) : Nat := cs.foldl (fun n c => 16 * n + (value? c).getD 0) 0

theorem value?_digit {n : Nat} (h : n < 16) : value? (digit n) = some n := by
  revert n
  decide

theorem number_padded (w n : Nat) : number (padded w n) = n % 16 ^ w := by
  induction w generalizing n with
  | zero => simp [padded, number, Nat.mod_one]
  | succ w ih =>
      have hlast : number (padded w (n / 16) ++ [digit (n % 16)]) =
          16 * number (padded w (n / 16)) + n % 16 := by
        simp [number, value?_digit (Nat.mod_lt n (by decide : 16 > 0))]
      rw [padded, hlast, ih, Nat.pow_succ', Nat.mod_mul, Nat.add_comm]

theorem number_digits (n : Nat) : number (digits n) = n := by
  rw [digits, number_padded]
  refine Nat.mod_eq_of_lt ?_
  calc n < 2 ^ (n.log2 + 1) := Nat.lt_log2_self
    _ ≤ 2 ^ (4 * max 1 ((n.log2 + 4) / 4)) := Nat.pow_le_pow_right (by decide) (by omega)
    _ = 16 ^ max 1 ((n.log2 + 4) / 4) := by rw [Nat.pow_mul]

theorem digit_of_mem {w n : Nat} {c : Char} (h : c ∈ padded w n) : ∃ m < 16, c = digit m := by
  induction w generalizing n with
  | zero => cases h
  | succ w ih =>
      rw [padded, List.mem_append, List.mem_singleton] at h
      rcases h with h | h
      · exact ih h
      · exact ⟨n % 16, Nat.mod_lt n (by decide), h⟩

/-- Digits have a value, and no mark has. -/
theorem isSome_value?_of_mem {w n : Nat} {c : Char} (h : c ∈ padded w n) :
    (value? c).isSome := by
  obtain ⟨m, hm, rfl⟩ := digit_of_mem h
  rw [value?_digit hm]
  rfl

theorem printable_of_mem {w n : Nat} {c : Char} (h : c ∈ padded w n) : ' ' ≤ c ∧ c ≤ '~' := by
  have hdigit : ∀ m < 16, ' ' ≤ digit m ∧ digit m ≤ '~' := by decide
  obtain ⟨m, hm, rfl⟩ := digit_of_mem h
  exact hdigit m hm

end Hex

/-! ## Escaped bytes -/

namespace Escaped

/-- The byte that a letter after a backslash stands for. -/
def unmark : Char → UInt8
  | 't' => 0x09
  | 'r' => 0x0d
  | 'n' => 0x0a
  | c => UInt8.ofNat c.toNat

/-- Reads the byte at the front of a text. -/
def read : List Char → Option (UInt8 × List Char)
  | [] => none
  | '\\' :: 'x' :: high :: low :: rest => some (UInt8.ofNat (Hex.number [high, low]), rest)
  | '\\' :: c :: rest => some (unmark c, rest)
  | c :: rest => some (UInt8.ofNat c.toNat, rest)

/-- A byte is shown by a letter or mark after a backslash, as itself, or by two digits. -/
theorem byte_cases (b : UInt8) :
    (∃ c, byte b = ['\\', c] ∧ c ≠ 'x' ∧ unmark c = b ∧ ' ' ≤ c ∧ c ≤ '~') ∨
      (byte b = [Char.ofNat b.toNat] ∧ b ≠ 0x5c ∧ 0x20 ≤ b ∧ b ≤ 0x7e) ∨
      byte b = '\\' :: 'x' :: Hex.byte b := by
  rw [byte]
  split
  next h => exact .inl ⟨'t', rfl, by decide, h.symm, by decide⟩
  split
  next h => exact .inl ⟨'r', rfl, by decide, h.symm, by decide⟩
  split
  next h => exact .inl ⟨'n', rfl, by decide, h.symm, by decide⟩
  split
  next h => exact .inl ⟨'\'', rfl, by decide, h.symm, by decide⟩
  split
  next h => exact .inl ⟨'"', rfl, by decide, h.symm, by decide⟩
  split
  next h => exact .inl ⟨'\\', rfl, by decide, h.symm, by decide⟩
  next hne =>
    split
    next h => exact .inr (.inl ⟨rfl, hne, h⟩)
    next => exact .inr (.inr rfl)

/-- The character of a byte that is shown as itself has the code of the byte. -/
theorem toNat_ofNat_byte {b : UInt8} (h : b ≤ 0x7e) : (Char.ofNat b.toNat).toNat = b.toNat := by
  have hb : b.toNat ≤ 126 := UInt8.le_iff_toNat_le.mp h
  have hvalid : b.toNat.isValidChar := .inl (by omega)
  rw [Char.ofNat, dif_pos hvalid]
  rfl

theorem read_byte (b : UInt8) (rest : List Char) : read (byte b ++ rest) = some (b, rest) := by
  rcases byte_cases b with ⟨c, hb, hc, rfl, -⟩ | ⟨hb, hne, -, hle⟩ | hb
  · rw [hb]
    simp [read, hc]
  · have hchar : Char.ofNat b.toNat ≠ '\\' := by
      intro h
      have hcode := toNat_ofNat_byte hle
      rw [h] at hcode
      exact hne (UInt8.toNat_inj.mp hcode.symm)
    rw [hb]
    simp [read, hchar, toNat_ofNat_byte hle]
  · have hdigits : Hex.number (Hex.byte b) = b.toNat := by
      rw [Hex.byte, Hex.number_padded]
      exact Nat.mod_eq_of_lt b.toNat_lt
    rw [hb]
    show some (UInt8.ofNat (Hex.number (Hex.byte b)), rest) = _
    rw [hdigits, UInt8.ofNat_toNat]

/-- No two byte strings are shown alike. -/
theorem bytes_inj {bs bs' : Bytes} (h : bytes bs = bytes bs') : bs = bs' := by
  have hcodes : bs.flatMap byte = bs'.flatMap byte := by
    simpa [bytes] using congrArg String.toList h
  exact flatMap_inj_of_read read_byte rfl hcodes

theorem printable_byte (b : UInt8) : ∀ c ∈ byte b, ' ' ≤ c ∧ c ≤ '~' := by
  intro c hc
  rcases byte_cases b with ⟨d, hb, -, -, hd⟩ | ⟨hb, -, hge, hle⟩ | hb
  · rw [hb, List.mem_cons, List.mem_singleton] at hc
    rcases hc with rfl | rfl
    · decide
    · exact hd
  · rw [hb, List.mem_singleton] at hc
    rw [Char.le_def, Char.le_def, UInt32.le_iff_toNat_le, UInt32.le_iff_toNat_le]
    have hcode : c.val.toNat = b.toNat := hc ▸ toNat_ofNat_byte hle
    rw [hcode]
    exact ⟨UInt8.le_iff_toNat_le.mp hge, UInt8.le_iff_toNat_le.mp hle⟩
  · rw [hb, List.mem_cons, List.mem_cons] at hc
    rcases hc with rfl | rfl | hc
    · decide
    · decide
    · exact Hex.printable_of_mem hc

/-- A byte string is shown in printable ASCII. -/
theorem printable_bytes (bs : Bytes) : ∀ c ∈ (bytes bs).toList, ' ' ≤ c ∧ c ≤ '~' := by
  intro c hc
  rw [bytes, String.toList_ofList, List.mem_append, List.mem_cons, List.mem_flatMap,
    List.mem_singleton] at hc
  rcases hc with (rfl | ⟨b, -, hc⟩) | rfl
  · decide
  · exact printable_byte b c hc
  · decide

end Escaped

/-! ## Quoted text -/

namespace Quoted

/-- The character that a letter after a backslash stands for. -/
def unmark : Char → Char
  | '0' => '\x00'
  | 't' => '\t'
  | 'r' => '\r'
  | 'n' => '\n'
  | c => c

/-- Reads the character at the front of a text. -/
def read : List Char → Option (Char × List Char)
  | [] => none
  | '\\' :: 'u' :: '\x7b' :: rest =>
      some (Char.ofNat (Hex.number (rest.takeWhile (· ≠ '\x7d'))),
        (rest.dropWhile (· ≠ '\x7d')).tail)
  | '\\' :: c :: rest => some (unmark c, rest)
  | c :: rest => some (c, rest)

/-- A character is shown by a letter after a backslash, as itself, or by the digits of its
code. -/
theorem char_cases (c : Char) :
    (∃ d, char c = ['\\', d] ∧ d ≠ 'u' ∧ unmark d = c) ∨
      (char c = [c] ∧ c ≠ '"' ∧ c ≠ '\\') ∨
      char c = ['\\', 'u', '\x7b'] ++ Hex.digits c.toNat ++ ['\x7d'] := by
  rw [char]
  split
  next h => exact .inl ⟨'0', rfl, by decide, h.symm⟩
  split
  next h => exact .inl ⟨'t', rfl, by decide, h.symm⟩
  split
  next h => exact .inl ⟨'r', rfl, by decide, h.symm⟩
  split
  next h => exact .inl ⟨'n', rfl, by decide, h.symm⟩
  split
  next h => exact .inl ⟨'"', rfl, by decide, h.symm⟩
  next hquote =>
    split
    next h => exact .inl ⟨'\\', rfl, by decide, h.symm⟩
    next hne =>
      split
      next => exact .inr (.inl ⟨rfl, hquote, hne⟩)
      next => exact .inr (.inr rfl)

theorem read_char (c : Char) (rest : List Char) : read (char c ++ rest) = some (c, rest) := by
  rcases char_cases c with ⟨d, hc, hd, rfl⟩ | ⟨hc, -, hne⟩ | hc
  · rw [hc]
    simp [read, hd]
  · rw [hc]
    simp [read, hne]
  · have hdigits : ∀ d ∈ Hex.digits c.toNat, decide (d ≠ '\x7d') := by
      intro d hd
      refine decide_eq_true fun heq => ?_
      have hsome := Hex.isSome_value?_of_mem hd
      rw [heq] at hsome
      cases hsome
    have htext : char c ++ rest =
        '\\' :: 'u' :: '\x7b' :: (Hex.digits c.toNat ++ '\x7d' :: rest) := by
      rw [hc]
      simp
    rw [htext, read, List.takeWhile_append_of_pos hdigits, List.dropWhile_append_of_pos hdigits]
    simp [Hex.number_digits]

/-- No two texts have the same codes. -/
theorem flatMap_char_inj {cs ds : List Char} (h : cs.flatMap char = ds.flatMap char) : cs = ds :=
  flatMap_inj_of_read read_char rfl h

/-! ### Quotes inside -/

/-- Each double quote comes right after a backslash. -/
def Guarded (cs : List Char) : Prop :=
  ∀ before behind, cs = before ++ '"' :: behind → before.getLast? = some '\\'

theorem guarded_of_notMem {cs : List Char} (h : '"' ∉ cs) : Guarded cs := by
  rintro before behind rfl
  exact absurd (by simp) h

theorem Guarded.append {cs ds : List Char} (h : Guarded cs) (h' : Guarded ds) :
    Guarded (cs ++ ds) := by
  intro before behind heq
  rcases List.append_eq_append_iff.mp heq with ⟨mid, rfl, hds⟩ | ⟨mid, hcs, hmid⟩
  · rw [List.getLast?_append, h' mid behind hds]
    rfl
  · cases mid with
    | nil =>
        have hempty := h' [] behind hmid.symm
        cases hempty
    | cons d mid =>
        obtain ⟨rfl, -⟩ : '"' = d ∧ behind = mid ++ ds := by simpa using hmid
        exact h before mid hcs

theorem guarded_char (c : Char) : Guarded (char c) := by
  rcases char_cases c with ⟨d, hc, -, -⟩ | ⟨hc, hquote, -⟩ | hc
  · rw [hc]
    intro before behind heq
    rcases before with - | ⟨e, - | ⟨e', before⟩⟩
    · cases heq
    · cases heq
      rfl
    · simp at heq
  · rw [hc]
    exact guarded_of_notMem (by simpa using Ne.symm hquote)
  · rw [hc]
    refine guarded_of_notMem fun hmem => ?_
    have hdigit : '"' ∈ Hex.digits c.toNat := by simpa using hmem
    have hsome := Hex.isSome_value?_of_mem hdigit
    cases hsome

theorem guarded_flatMap (cs : List Char) : Guarded (cs.flatMap char) := by
  induction cs with
  | nil => exact guarded_of_notMem (by simp)
  | cons c cs ih => exact (guarded_char c).append ih

end Quoted

end Leaderboard
