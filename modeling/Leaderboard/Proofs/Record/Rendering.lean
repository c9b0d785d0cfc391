import Leaderboard.Proofs.Record.Addressing
import Leaderboard.Proofs.Text
import Leaderboard.Record.Render
import Std.Data.String.ToInt

/-!
# Records are shown apart

Store keys are shown in words, and no two alike (`rendering_unambiguous`).  The name of a tree
is shown as it is and may hold whatever comes after it, so a shown record is told from its end:
the four kinds end differently, and the mark that opens a rank key or the name of an entity
does not occur behind it (`Record.Opens`).
-/

namespace Leaderboard

/-! ## Marks -/

namespace Record

/-- A mark does not occur again behind the place where it opens a text. -/
def Opens (mark cs : List Char) : Prop :=
  ∀ before ds, mark ++ cs = before ++ (mark ++ ds) → before = []

theorem opens_of_notMem {c : Char} {cs : List Char} (h : c ∉ cs) : Opens [c] cs := by
  intro before ds heq
  cases before with
  | nil => rfl
  | cons d before =>
      obtain ⟨-, rfl⟩ : c = d ∧ cs = before ++ c :: ds := by simpa using heq
      exact absurd (by simp) h

theorem opens_of_guarded {cs : List Char} (h : Quoted.Guarded cs) : Opens ['(', '"'] cs := by
  intro before ds heq
  match before with
  | [] => rfl
  | [d] =>
      have hquote : '"' = '(' := by
        simp only [List.cons_append, List.nil_append, List.cons.injEq] at heq
        exact heq.2.1
      cases hquote
  | d :: e :: before =>
      obtain ⟨-, -, heq⟩ : '(' = d ∧ '"' = e ∧ cs = before ++ '(' :: '"' :: ds := by
        simpa using heq
      have hlast := h (before ++ ['(']) ds (by simpa using heq)
      simp at hlast

/-- What comes before a mark that opens a text, and the text. -/
theorem Opens.inj {mark as bs cs ds : List Char} (hcs : Opens mark cs) (hds : Opens mark ds)
    (h : as ++ (mark ++ cs) = bs ++ (mark ++ ds)) : as = bs ∧ cs = ds := by
  have hbefore : as = bs := by
    rcases List.append_eq_append_iff.mp h with ⟨mid, rfl, hmid⟩ | ⟨mid, rfl, hmid⟩
    · rw [hcs mid ds hmid, List.append_nil]
    · rw [hds mid cs hmid, List.append_nil]
  subst hbefore
  exact ⟨rfl, List.append_cancel_left (List.append_cancel_left h)⟩

end Record

/-! ## Rank keys -/

namespace Hex

theorem notMem_padded {c : Char} (h : value? c = none) (w n : Nat) : c ∉ padded w n := by
  intro hmem
  have hsome := isSome_value?_of_mem hmem
  rw [h] at hsome
  cases hsome

theorem padded_word_inj {x y : UInt64} (h : padded 16 x.toNat = padded 16 y.toNat) : x = y := by
  have hmod : ∀ z : UInt64, number (padded 16 z.toNat) = z.toNat := by
    intro z
    rw [number_padded]
    exact Nat.mod_eq_of_lt z.toNat_lt
  rw [← UInt64.toNat_inj, ← hmod x, ← hmod y, h]

end Hex

/-- A number is shown in digits, with a minus sign in front if it is negative. -/
theorem mem_toString_int {n : Int} {c : Char} (h : c ∈ (toString n).toList) :
    c = '-' ∨ c.isDigit := by
  have hnat : ∀ m : Nat, c ∈ m.repr.toList → c.isDigit := by
    intro m hm
    rw [Nat.repr_eq_ofList_toDigits, String.toList_ofList] at hm
    exact Nat.isDigit_of_mem_toDigits (by decide) (by decide) hm
  rw [show toString n = n.repr from rfl, Int.repr_eq_if] at h
  split at h
  next => exact .inr (hnat _ h)
  next =>
    rw [String.toList_append, List.mem_append] at h
    rcases h with h | h
    · exact .inl (List.mem_singleton.mp h)
    · exact .inr (hnat _ h)

namespace RankKey

theorem toList_render (k : RankKey) :
    k.render.toList =
      (toString k.count.toInt).toList ++ (['/'] ++ Hex.padded 16 k.tie.toNat) := by
  simp [render, Hex.word]

theorem notMem_render {c : Char} (hdigit : c.isDigit = false) (hminus : c ≠ '-') (hslash : c ≠ '/')
    (hhex : Hex.value? c = none) (k : RankKey) : c ∉ k.render.toList := by
  rw [toList_render, List.mem_append, List.mem_append, List.mem_singleton]
  rintro (h | h | h)
  · rcases mem_toString_int h with h | h
    · exact hminus h
    · rw [hdigit] at h
      cases h
  · exact hslash h
  · exact Hex.notMem_padded hhex _ _ h

/-- No two keys with their separators are shown alike. -/
theorem render_inj {k j : RankKey} (hk : k.Made) (hj : j.Made)
    (h : k.render.toList = j.render.toList) : k = j := by
  have hopens : ∀ n, Record.Opens ['/'] (Hex.padded 16 n) :=
    fun n => Record.opens_of_notMem (Hex.notMem_padded rfl 16 n)
  rw [toList_render, toList_render] at h
  obtain ⟨hcount, htie⟩ := (hopens k.tie.toNat).inj (hopens j.tie.toNat) h
  have hcount : k.count = j.count :=
    Int64.toInt_inj.mp (Int.repr_inj.mp (String.toList_inj.mp hcount))
  obtain ⟨count, separator, tie⟩ := k
  obtain ⟨count', separator', tie'⟩ := j
  obtain rfl : separator = RankKey.slash := hk
  obtain rfl : separator' = RankKey.slash := hj
  obtain rfl : count = count' := hcount
  obtain rfl : tie = tie' := Hex.padded_word_inj htie
  rfl

end RankKey

/-! ## Shown records -/

namespace Address

/-- A record in words. -/
def shown : Address → String
  | root tree => tree ++ ":root"
  | node tree key => tree ++ ":node(" ++ key.render ++ ")"
  | entity tree name => tree ++ ":entity(" ++ Quoted.text name ++ ")"

theorem toList_shown_root (tree : String) :
    (root tree).shown.toList = tree.toList ++ ":root".toList := by
  simp [shown]

theorem toList_shown_node (tree : String) (key : RankKey) :
    (node tree key).shown.toList =
      (tree.toList ++ ":node".toList) ++ (['('] ++ key.render.toList) ++ [')'] := by
  simp [shown]

theorem toList_shown_entity (tree name : String) :
    (entity tree name).shown.toList =
      (tree.toList ++ ":entity".toList) ++ (['(', '"'] ++ name.toList.flatMap Quoted.char) ++
        ['"'] ++ [')'] := by
  simp [shown, Quoted.text]

/-- The last character tells the pointer to a root from other records. -/
theorem getLast?_shown (a : Address) :
    a.shown.toList.getLast? = some (match a with | root _ => 't' | _ => ')') := by
  cases a with
  | root tree => simp [toList_shown_root]
  | node tree key => rw [toList_shown_node, List.getLast?_concat]
  | entity tree name => rw [toList_shown_entity, List.getLast?_concat]

/-- No record of a tree is shown as bytes are. -/
theorem shown_ne_bytes (a : Address) (raw : Bytes) : a.shown ≠ Escaped.bytes raw := by
  intro h
  have hlast := a.getLast?_shown
  rw [h, Escaped.bytes, String.toList_ofList, List.getLast?_concat] at hlast
  cases a <;> simp at hlast

/-- A node is not shown as an entity: its key does not end with a quote. -/
theorem shown_node_ne_entity (tree tree' name : String) (key : RankKey) :
    (node tree key).shown ≠ (entity tree' name).shown := by
  intro h
  have hchars := congrArg String.toList h
  rw [toList_shown_node, toList_shown_entity] at hchars
  have hlast := congrArg List.getLast? (List.append_cancel_right hchars)
  rw [List.getLast?_concat, List.getLast?_append, Option.or_eq_some_iff] at hlast
  rcases hlast with hlast | ⟨hnone, -⟩
  · rcases List.mem_append.mp (List.mem_of_getLast? hlast) with hmem | hmem
    · cases List.mem_singleton.mp hmem
    · exact key.notMem_render rfl (by decide) (by decide) rfl hmem
  · simp at hnone

/-- No two records of trees are shown alike. -/
theorem shown_inj {a b : Address} (ha : a.Made) (hb : b.Made) (h : a.shown = b.shown) :
    a = b := by
  have hlast := a.getLast?_shown
  rw [h, b.getLast?_shown] at hlast
  have hchars := congrArg String.toList h
  cases a with
  | root tree =>
      cases b with
      | root tree' =>
          rw [toList_shown_root, toList_shown_root] at hchars
          rw [String.toList_inj.mp (List.append_cancel_right hchars)]
      | node tree' key => simp at hlast
      | entity tree' name => simp at hlast
  | node tree key =>
      cases b with
      | root tree' => simp at hlast
      | node tree' key' =>
          rw [toList_shown_node, toList_shown_node] at hchars
          have hopens : ∀ k : RankKey, Record.Opens ['('] k.render.toList := fun k =>
            Record.opens_of_notMem (k.notMem_render rfl (by decide) (by decide) rfl)
          obtain ⟨htree, hkey⟩ := (hopens key).inj (hopens key') (List.append_cancel_right hchars)
          rw [String.toList_inj.mp (List.append_cancel_right htree),
            RankKey.render_inj ha hb hkey]
      | entity tree' name => exact absurd h (shown_node_ne_entity tree tree' name key)
  | entity tree name =>
      cases b with
      | root tree' => simp at hlast
      | node tree' key => exact absurd h.symm (shown_node_ne_entity tree' tree name key)
      | entity tree' name' =>
          rw [toList_shown_entity, toList_shown_entity] at hchars
          have hopens : ∀ cs : List Char, Record.Opens ['(', '"'] (cs.flatMap Quoted.char) :=
            fun cs => Record.opens_of_guarded (Quoted.guarded_flatMap cs)
          obtain ⟨htree, hname⟩ :=
            (hopens name.toList).inj (hopens name'.toList)
              (List.append_cancel_right (List.append_cancel_right hchars))
          rw [String.toList_inj.mp (List.append_cancel_right htree),
            String.toList_inj.mp (Quoted.flatMap_char_inj hname)]

end Address

namespace Record

theorem key_eq (raw : Bytes) :
    key raw = ((Address.parse raw).map Address.shown).getD (Escaped.bytes raw) := by
  rw [key]
  cases Address.parse raw with
  | none => rfl
  | some a => cases a <;> rfl

/-- No two store keys are shown alike. -/
theorem key_inj {raw raw' : Bytes} (h : key raw = key raw') : raw = raw' := by
  rw [key_eq, key_eq] at h
  cases hparse : Address.parse raw with
  | none =>
      cases hparse' : Address.parse raw' with
      | none =>
          rw [hparse, hparse'] at h
          exact Escaped.bytes_inj h
      | some b =>
          rw [hparse, hparse'] at h
          exact absurd h.symm (b.shown_ne_bytes raw)
  | some a =>
      cases hparse' : Address.parse raw' with
      | none =>
          rw [hparse, hparse'] at h
          exact absurd h (a.shown_ne_bytes raw')
      | some b =>
          rw [hparse, hparse'] at h
          obtain ⟨-, hmade, rfl⟩ := Address.parse_eq_some hparse
          obtain ⟨-, hmade', rfl⟩ := Address.parse_eq_some hparse'
          rw [Address.shown_inj hmade hmade' h]

end Record

/-- Different byte strings are shown differently, in printable ASCII, and different store keys
are shown differently as well. -/
theorem rendering_unambiguous :
    Function.Injective Escaped.bytes ∧
      (∀ bs, ∀ c ∈ (Escaped.bytes bs).toList, ' ' ≤ c ∧ c ≤ '~') ∧
      Function.Injective Record.key :=
  ⟨fun _ _ => Escaped.bytes_inj, Escaped.printable_bytes, fun _ _ => Record.key_inj⟩

end Leaderboard
