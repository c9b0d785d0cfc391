import Leaderboard.Lock
import Leaderboard.Proofs.File.Lawful

/-!
# Taking a lock

A lock that nobody has is taken, unless its file has a fault, and then this fault is
reported (`LockFile.acquire_of_free`).
-/

namespace Leaderboard

open File (Holds)
open LawfulFile (Calm)

/-- A place where a file was opened has a file. -/
theorem Disk.holds_of_create {d d' : Disk}
    (h : (File.create : FileM Disk Unit) d = (.ok (), d')) : ∃ c, Holds d' c := by
  cases hentry : d.entry with
  | absent =>
      simp only [File.create, hentry] at h
      cases h
      exact ⟨[], rfl⟩
  | file c =>
      simp only [File.create, hentry] at h
      cases h
      exact ⟨c, Disk.holds_iff.mpr hentry⟩
  | directory =>
      simp only [File.create, hentry] at h
      cases h

namespace LockFile

/-- Leaves the mark of a holder in the file. -/
def leave (mark : String) : FileM Disk Unit := do
  File.resize 0
  File.append (Bytes.ofString mark)
  File.append [0x0a]

theorem leave_calm {d : Disk} {c : Bytes} (hcalm : Calm d) (hd : Holds d c) (mark : String) :
    ∃ d', leave mark d = (.ok (), d') ∧ Calm d' := by
  obtain ⟨d₁, hcut, hcalm⟩ := LawfulFile.resize_calm 0 hcalm hd
  have hd₁ := LawfulFile.resize_holds hd (Nat.zero_le _) hcut
  obtain ⟨d₂, hmark, hcalm⟩ := LawfulFile.append_calm (Bytes.ofString mark) hcalm hd₁
  obtain ⟨n, hd₂, -⟩ := LawfulFile.append_holds hd₁ hmark
  obtain ⟨d₃, hline, hcalm⟩ := LawfulFile.append_calm [0x0a] hcalm hd₂
  refine ⟨d₃, ?_, hcalm⟩
  rw [leave, File.bind_of_ok hcut, File.bind_of_ok hmark, hline]

/-- What becomes of a lock that nobody has. -/
theorem acquire_eq {lock : LockFile} (hfree : lock.held = false) (mark : String) :
    acquire mark lock =
      match (File.create : FileM Disk Unit) lock.disk with
      | (.error cause, disk) => (.error (.io cause), { lock with disk })
      | (.ok (), disk) =>
          match leave mark disk with
          | (.error cause, disk) => (.error (.io cause), { disk, held := false })
          | (.ok (), disk) => (.ok (), { disk, held := true }) := by
  rw [acquire, hfree]
  rfl

/-- A lock that nobody has is taken, unless its file has a fault. -/
theorem acquire_of_free {lock : LockFile} (hfree : lock.held = false) (mark : String) :
    ∃ r lock', acquire mark lock = (r, lock') ∧
      ((r = .ok () ∧ (Calm lock.disk → Calm lock'.disk)) ∨
        (¬ Calm lock.disk ∧ ∃ cause, r = .error (.io cause))) := by
  rw [acquire_eq hfree]
  rcases hcreate : (File.create : FileM Disk Unit) lock.disk with ⟨(cause | _), d⟩
  · refine ⟨_, _, rfl, .inr ⟨fun hcalm => ?_, cause, rfl⟩⟩
    obtain ⟨d', hcreate', -⟩ := LawfulFile.create_calm hcalm
    rw [hcreate] at hcreate'
    cases hcreate'
  · have hleft (hcalm : Calm lock.disk) : ∃ d', leave mark d = (.ok (), d') ∧ Calm d' := by
      obtain ⟨d', hcreate', hcalm'⟩ := LawfulFile.create_calm hcalm
      rw [hcreate] at hcreate'
      cases hcreate'
      obtain ⟨c, hc⟩ := Disk.holds_of_create hcreate
      exact leave_calm hcalm' hc mark
    dsimp only
    rcases hleave : leave mark d with ⟨(cause | _), d'⟩
    · rw [hleave] at hleft
      refine ⟨_, _, rfl, .inr ⟨fun hcalm => ?_, cause, rfl⟩⟩
      obtain ⟨d'', hleave', -⟩ := hleft hcalm
      cases hleave'
    · rw [hleave] at hleft
      refine ⟨_, _, rfl, .inl ⟨rfl, fun hcalm => ?_⟩⟩
      obtain ⟨d'', hleave', hcalm'⟩ := hleft hcalm
      cases hleave'
      exact hcalm'

end LockFile

end Leaderboard
