import Leaderboard.File

/-!
# What file operations leave behind

An operation on a file may fail, and then the file is still there.  `File.Holds`
says which bytes it has.  A write that fails has written a first part of its
bytes, at its place and nowhere else; cutting a file and waiting for the disk
change nothing when they fail.  A type of files of which this holds is a
`LawfulFile`.  It also says on which files no operation fails, which is used for
statements about what succeeds.

`Disk` is lawful, and calm where it has no limit.  When and why operations on
other files fail is left open, so that what is proved of lawful files holds for
every fault.

`File.Appends` is said of actions that write at the end only: it tells what they
have written there if they succeed.
-/

namespace Leaderboard

namespace File

variable {φ : Type} [File φ]

/-- The file is there and has these bytes. -/
def Holds (f : φ) (c : Bytes) : Prop := File.source f = .ok (.bytes c)

/-- Once it is opened, the file has these bytes: those it has, or none if it is
made. -/
def Finds (f : φ) (c : Bytes) : Prop := Holds ((File.create : FileM φ Unit) f).2 c

theorem Holds.unique {f : φ} {c d : Bytes} (hc : Holds f c) (hd : Holds f d) : c = d := by
  rw [Holds, hc] at hd
  cases hd
  rfl

theorem Holds.contents_eq {f : φ} {c : Bytes} (h : Holds f c) :
    (File.contents : FileM φ Bytes) f = (.ok c, f) := by
  rw [Holds] at h
  simp only [File.contents, bind, ExceptT.bind, ExceptT.mk, StateT.bind, ExceptT.bindCont,
    get, getThe, MonadStateOf.get, liftM, monadLift, MonadLift.monadLift, ExceptT.lift,
    StateT.get, StateT.map, Functor.map, pure, h]
  rfl

end File

open File (Holds Finds)

/-- Files that have the bytes that were written to them, also after an operation on
them failed. -/
class LawfulFile (φ : Type) [File φ] where
  /-- No operation on the file fails. -/
  Calm : φ → Prop
  /-- A file that is there is opened as it is. -/
  create_holds {f f' : φ} {c : Bytes} {r : Except IoFault Unit} (h : Holds f c) :
    File.create f = (r, f') → Holds f' c
  /-- A first part of the bytes is written at the end. -/
  append_holds {f f' : φ} {c bs : Bytes} {r : Except IoFault Unit} (h : Holds f c) :
    File.append bs f = (r, f') →
      ∃ n, Holds f' (c ++ bs.take n) ∧ (r = .ok () → n = bs.length)
  /-- A first part of the bytes is written over the start. -/
  overwrite_holds {f f' : φ} {c bs : Bytes} {r : Except IoFault Unit} (h : Holds f c) :
    File.overwrite bs f = (r, f') →
      ∃ n ≤ bs.length, Holds f' (bs.take n ++ c.drop n) ∧ (r = .ok () → n = bs.length)
  /-- A file that is cut has the bytes before the cut. -/
  resize_holds {f f' : φ} {c : Bytes} {n : Nat} (h : Holds f c) (hn : n ≤ c.length) :
    File.resize n f = (.ok (), f') → Holds f' (c.take n)
  /-- Waiting for the disk changes nothing. -/
  sync_holds {f f' : φ} {c : Bytes} {r : Except IoFault Unit} (h : Holds f c) :
    File.sync f = (r, f') → Holds f' c
  /-- A calm file can be opened. -/
  create_calm {f : φ} (h : Calm f) : ∃ f', File.create f = (.ok (), f') ∧ Calm f'
  /-- A calm file can be appended to. -/
  append_calm {f : φ} {c : Bytes} (bs : Bytes) (h : Calm f) (hc : Holds f c) :
    ∃ f', File.append bs f = (.ok (), f') ∧ Calm f'
  /-- A calm file can be written over. -/
  overwrite_calm {f : φ} {c : Bytes} (bs : Bytes) (h : Calm f) (hc : Holds f c) :
    ∃ f', File.overwrite bs f = (.ok (), f') ∧ Calm f'
  /-- A calm file can be cut. -/
  resize_calm {f : φ} {c : Bytes} (n : Nat) (h : Calm f) (hc : Holds f c) :
    ∃ f', File.resize n f = (.ok (), f') ∧ Calm f'
  /-- A calm file can be forced to the disk. -/
  sync_calm {f : φ} {c : Bytes} (h : Calm f) (hc : Holds f c) :
    ∃ f', File.sync f = (.ok (), f') ∧ Calm f'

/-! ## Places in a directory -/

namespace Disk

theorem holds_iff {d : Disk} {c : Bytes} : Holds d c ↔ d.entry = .file c := by
  cases h : d.entry <;> simp [Holds, File.source, h]

theorem holds_holding (d : Disk) (c : Bytes) : Holds (d.holding c) c := rfl

theorem allowed_le (d : Disk) (offset count : Nat) : d.allowed offset count ≤ count := by
  rw [allowed]
  cases d.limit with
  | none => exact Nat.le_refl _
  | some limit => exact Nat.min_le_left _ _

theorem write_eq {d : Disk} {c : Bytes} (h : d.entry = .file c) (offset : Nat) (bs : Bytes) :
    d.write offset bs =
      (if d.allowed offset bs.length < bs.length then .error .fileTooLarge else .ok (),
        d.holding (c.take offset ++ bs.take (d.allowed offset bs.length)
          ++ c.drop (offset + d.allowed offset bs.length))) := by
  simp only [write, h]

/-- A write that succeeds is a whole one. -/
theorem allowed_eq_of_ok {d : Disk} {offset count : Nat}
    (h : (if d.allowed offset count < count then Except.error IoFault.fileTooLarge
      else Except.ok ()) = .ok ()) : d.allowed offset count = count := by
  split at h
  · cases h
  · exact Nat.le_antisymm (d.allowed_le offset count) (Nat.le_of_not_lt ‹_›)

/-- Without a limit a write succeeds. -/
theorem write_eq_of_limit {d : Disk} {c : Bytes} (h : d.entry = .file c) (hd : d.limit = none)
    (offset : Nat) (bs : Bytes) :
    d.write offset bs =
      (.ok (), d.holding (c.take offset ++ bs ++ c.drop (offset + bs.length))) := by
  have hallowed : d.allowed offset bs.length = bs.length := by
    rw [allowed, hd]
  rw [write_eq h, hallowed, if_neg (Nat.lt_irrefl _), List.take_length]

theorem append_eq {d : Disk} {c : Bytes} (h : d.entry = .file c) (bs : Bytes) :
    File.append bs d = d.write c.length bs := by
  simp [File.append, file?, h]

theorem resize_eq {d : Disk} {c : Bytes} {n : Nat} (h : d.entry = .file c) (hn : n ≤ c.length) :
    File.resize n d = (.ok (), d.holding (c.take n)) := by
  have hgrown : n - c.length = 0 := Nat.sub_eq_zero_of_le hn
  simp [File.resize, resizeTo, h, hgrown]

instance : LawfulFile Disk where
  Calm d := d.limit = none ∧ d.entry ≠ .directory
  create_holds := by
    intro d d' c r h heq
    rw [holds_iff] at h
    simp only [File.create, h] at heq
    cases heq
    exact holds_iff.mpr h
  append_holds := by
    intro d d' c bs r h heq
    rw [holds_iff] at h
    rw [append_eq h, write_eq h] at heq
    cases heq
    refine ⟨d.allowed c.length bs.length, ?_, allowed_eq_of_ok⟩
    simp [holds_iff, holding]
  overwrite_holds := by
    intro d d' c bs r h heq
    rw [holds_iff] at h
    have heq := (write_eq h 0 bs).symm.trans heq
    cases heq
    refine ⟨d.allowed 0 bs.length, d.allowed_le 0 _, ?_, allowed_eq_of_ok⟩
    simp [holds_iff, holding]
  resize_holds := by
    intro d d' c n h hn heq
    rw [holds_iff] at h
    rw [resize_eq h hn] at heq
    cases heq
    exact holds_holding d _
  sync_holds := by
    intro d d' c r h heq
    cases heq
    exact h
  create_calm := by
    intro d h
    cases hd : d.entry with
    | absent => exact ⟨d.holding [], by simp [File.create, hd], h.1, by simp [holding]⟩
    | file c => exact ⟨d, by simp [File.create, hd], h⟩
    | directory => exact absurd hd h.2
  append_calm := by
    intro d c bs h hc
    rw [holds_iff] at hc
    rw [append_eq hc, write_eq_of_limit hc h.1]
    exact ⟨_, rfl, h.1, by simp [holding]⟩
  overwrite_calm := by
    intro d c bs h hc
    rw [holds_iff] at hc
    exact ⟨_, write_eq_of_limit hc h.1 0 bs, h.1, by simp [holding]⟩
  resize_calm := by
    intro d c n h hc
    rw [holds_iff] at hc
    have hallowed : d.allowed c.length (n - c.length) = n - c.length := by
      rw [allowed, h.1]
    simp only [File.resize, resizeTo, hc, hallowed, Nat.lt_irrefl, if_false]
    exact ⟨_, rfl, h.1, by simp [holding]⟩
  sync_calm h _ := ⟨_, rfl, h⟩

theorem append_nil (c : Bytes) (limit : Option Nat) :
    File.append [] ({ entry := .file c, limit } : Disk) =
      (.ok (), { entry := .file c, limit }) := by
  have hallowed : ({ entry := .file c, limit } : Disk).allowed c.length 0 = 0 :=
    Nat.le_zero.mp (allowed_le _ _ _)
  rw [append_eq rfl, write_eq rfl, List.length_nil, hallowed]
  simp [holding]

/-- A write over the start stops at the limit. -/
theorem overwrite_limited {c bs : Bytes} {n : Nat} (hn : n < bs.length) :
    File.overwrite bs ({ entry := .file c, limit := some n } : Disk) =
      (.error .fileTooLarge, { entry := .file (bs.take n ++ c.drop n), limit := some n }) := by
  have hallowed : ({ entry := .file c, limit := some n } : Disk).allowed 0 bs.length = n := by
    simp only [allowed, Nat.sub_zero]
    omega
  show Disk.write _ 0 bs = _
  rw [write_eq rfl, hallowed, if_pos hn, Nat.zero_add]
  rfl

theorem calm_file (c : Bytes) : LawfulFile.Calm ({ entry := .file c } : Disk) := ⟨rfl, nofun⟩

theorem unlimited_eq {d : Disk} {c : Bytes} (h : Holds d c) :
    ({ d with limit := none } : Disk) = { entry := .file c } := by
  rw [holds_iff] at h
  rw [h]

theorem finds_file (c : Bytes) : Finds ({ entry := .file c } : Disk) c := rfl

/-- A write at the end stops at the limit. -/
theorem append_limited {c bs : Bytes} {n : Nat} (hn : n < bs.length) :
    File.append bs ({ entry := .file c, limit := some (c.length + n) } : Disk) =
      (.error .fileTooLarge,
        { entry := .file (c ++ bs.take n), limit := some (c.length + n) }) := by
  have hallowed : ({ entry := .file c, limit := some (c.length + n) } : Disk).allowed c.length
      bs.length = n := by
    simp only [allowed, Nat.add_sub_cancel_left]
    omega
  rw [append_eq rfl, write_eq rfl, hallowed, if_pos hn, List.take_length,
    List.drop_eq_nil_of_le (Nat.le_add_right _ _), List.append_nil]
  rfl

end Disk

/-! ## Actions that write at the end only -/

namespace File

variable {φ α β : Type}

/-- An action that succeeds is gone on with. -/
theorem bind_of_ok {x : FileM φ α} {f g : φ} {a : α} (h : x f = (.ok a, g))
    (k : α → FileM φ β) : (x >>= k) f = k a g := by
  show ExceptT.bindCont k (x f).1 (x f).2 = _
  rw [h]
  rfl

/-- An action that fails is not gone on with. -/
theorem bind_of_error {x : FileM φ α} {f g : φ} {cause : IoFault}
    (h : x f = (.error cause, g)) (k : α → FileM φ β) : (x >>= k) f = (.error cause, g) := by
  show ExceptT.bindCont k (x f).1 (x f).2 = _
  rw [h]
  rfl

variable [File φ]

/-- An action only writes at the end of a file.  If it succeeds, `done` says what it
has written there. -/
def Appends (x : FileM φ α) (done : α → Bytes → Prop) : Prop :=
  ∀ ⦃f f' : φ⦄ ⦃c : Bytes⦄ ⦃r : Except IoFault α⦄, Holds f c → x f = (r, f') →
    ∃ w, Holds f' (c ++ w) ∧ ∀ a, r = .ok a → done a w

theorem appends_pure (a : α) :
    Appends (pure a : FileM φ α) fun b w => b = a ∧ w = [] := by
  intro f f' c r h heq
  cases heq
  refine ⟨[], by rwa [List.append_nil], ?_⟩
  intro b hb
  cases hb
  exact ⟨rfl, rfl⟩

theorem Appends.mono {x : FileM φ α} {P Q : α → Bytes → Prop} (hx : Appends x P)
    (h : ∀ a w, P a w → Q a w) : Appends x Q := by
  intro f f' c r hf heq
  obtain ⟨w, hw, hdone⟩ := hx hf heq
  exact ⟨w, hw, fun a ha => h a w (hdone a ha)⟩

theorem Appends.bind {x : FileM φ α} {k : α → FileM φ β} {P : α → Bytes → Prop}
    {Q : α → β → Bytes → Prop} (hx : Appends x P) (hk : ∀ a u, P a u → Appends (k a) (Q a)) :
    Appends (x >>= k) fun b w => ∃ a u v, P a u ∧ Q a b v ∧ w = u ++ v := by
  intro f f' c r h heq
  cases hrun : x f with
  | mk s g =>
      obtain ⟨u, hu, hdone⟩ := hx h hrun
      cases s with
      | error cause =>
          rw [bind_of_error hrun] at heq
          cases heq
          exact ⟨u, hu, fun b hb => by cases hb⟩
      | ok a =>
          rw [bind_of_ok hrun] at heq
          have ha := hdone a rfl
          obtain ⟨v, hv, hdone'⟩ := hk a u ha hu heq
          rw [List.append_assoc] at hv
          exact ⟨u ++ v, hv, fun b hb => ⟨a, u, v, ha, hdone' b hb, rfl⟩⟩

theorem appends_append [LawfulFile φ] (bs : Bytes) :
    Appends (File.append bs : FileM φ Unit) fun _ w => w = bs := by
  intro f f' c r h heq
  obtain ⟨n, hholds, hn⟩ := LawfulFile.append_holds h heq
  refine ⟨_, hholds, fun a ha => ?_⟩
  rw [hn ha, List.take_length]

theorem appends_sync [LawfulFile φ] :
    Appends (File.sync : FileM φ Unit) fun _ w => w = [] := by
  intro f f' c r h heq
  refine ⟨[], ?_, fun _ _ => rfl⟩
  rw [List.append_nil]
  exact LawfulFile.sync_holds h heq

/-- Bytes are written over the start of the file, which is then forced to the disk. -/
theorem overwrite_sync_holds [LawfulFile φ] {f f' : φ} {c bs : Bytes} {r : Except IoFault Unit}
    (h : Holds f c) (heq : (File.overwrite bs *> File.sync : FileM φ Unit) f = (r, f')) :
    ∃ n ≤ bs.length, Holds f' (bs.take n ++ c.drop n) ∧ (r = .ok () → n = bs.length) := by
  have hbind : (File.overwrite bs *> File.sync : FileM φ Unit) =
      File.overwrite bs >>= fun _ => File.sync := rfl
  rw [hbind] at heq
  cases hrun : (File.overwrite bs : FileM φ Unit) f with
  | mk s g =>
      obtain ⟨n, hn, hg, hdone⟩ := LawfulFile.overwrite_holds h hrun
      cases s with
      | error cause =>
          rw [bind_of_error hrun] at heq
          cases heq
          exact ⟨n, hn, hg, fun hok => by cases hok⟩
      | ok u =>
          rw [bind_of_ok hrun] at heq
          exact ⟨n, hn, LawfulFile.sync_holds hg heq, fun _ => hdone rfl⟩

end File

end Leaderboard
