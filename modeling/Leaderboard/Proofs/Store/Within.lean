import Leaderboard.Proofs.Store.Contents
import Leaderboard.Tree.Session
import Leaderboard.Tree.Walk

/-!
# Operations that keep to some records

`Dialogue.Within` says of a dialogue that it reads and writes no other records than
those with some property, whatever it is replied.  What it comes to on some contents
then depends on those records alone (`Access.Within.eval_eq`), and it changes no other
(`Access.Within.write_eq`).

`SessionM.Within` and `WalkM.Within` say the same of an action of a session and of an
action of a walk.
-/

namespace Leaderboard

variable {P P' : Bytes → Prop} {α β : Type}

/-! ## Dialogues -/

namespace Dialogue

/-- Every record that the dialogue reads or writes has some property. -/
def Within (P : Bytes → Prop) : Dialogue α → Prop
  | answer _ => True
  | get key next => P key ∧ ∀ reply, (next reply).Within P
  | put key _ next => P key ∧ ∀ reply, (next reply).Within P

theorem Within.bind {d : Dialogue α} {f : α → Dialogue β} (h : d.Within P)
    (hf : ∀ a, (f a).Within P) : (d >>= f).Within P := by
  induction d with
  | answer a => exact hf a
  | get key next ih => exact ⟨h.1, fun reply => ih reply (h.2 reply)⟩
  | put key value next ih => exact ⟨h.1, fun reply => ih reply (h.2 reply)⟩

theorem Within.mono {d : Dialogue α} (h : d.Within P) (hP : ∀ key, P key → P' key) :
    d.Within P' := by
  induction d with
  | answer a => trivial
  | get key next ih => exact ⟨hP key h.1, fun reply => ih reply (h.2 reply)⟩
  | put key value next ih => exact ⟨hP key h.1, fun reply => ih reply (h.2 reply)⟩

/-- On contents with the same records of this property a dialogue comes to the same. -/
theorem Within.eval_eq {d : Dialogue α} (h : d.Within P) {c c' : Contents}
    (hc : ∀ key, P key → c key = c' key) : d.eval c = d.eval c' := by
  induction d generalizing c c' with
  | answer a => rfl
  | get key next ih =>
      rw [eval, eval, hc key h.1]
      exact ih _ (h.2 _) hc
  | put key value next ih =>
      have hput : ∀ k, P k → c.put key value k = c'.put key value k := by
        intro k hk
        simp only [Contents.put, hc k hk]
      rw [eval, eval, ih _ (h.2 _) hput]

/-- A dialogue puts records with this property only. -/
theorem Within.puts {d : Dialogue α} (h : d.Within P) (c : Contents) :
    ∀ p ∈ (d.eval c).2, P p.1 := by
  induction d generalizing c with
  | answer a => simp [eval]
  | get key next ih => exact ih _ (h.2 _) c
  | put key value next ih =>
      intro p hp
      rcases List.mem_cons.mp hp with rfl | hp
      · exact h.1
      · exact ih _ (h.2 _) _ p hp

end Dialogue

/-! ## Operations -/

namespace Access

/-- Every record that the operation reads or writes has some property. -/
def Within (P : Bytes → Prop) (access : Access α) : Prop := Dialogue.Within P access.run

variable {access : Access α} {f : α → Access β}

theorem within_pure (a : α) : (pure a : Access α).Within P := trivial

theorem within_throw (failure : Failure) : (throw failure : Access α).Within P := trivial

theorem within_get {key : Bytes} (h : P key) : (get key).Within P := ⟨h, fun _ => trivial⟩

theorem within_put {key : Bytes} (h : P key) (value : Bytes) : (put key value).Within P :=
  ⟨h, fun _ => trivial⟩

theorem Within.bind (h : access.Within P) (hf : ∀ a, (f a).Within P) :
    (access >>= f).Within P := by
  refine Dialogue.Within.bind h fun outcome => ?_
  cases outcome with
  | ok a => exact hf a
  | error failure => trivial

theorem Within.map (h : access.Within P) (g : α → β) : (g <$> access).Within P := by
  rw [map_eq_pure_bind]
  exact h.bind fun a => within_pure _

theorem Within.mono (h : access.Within P) (hP : ∀ key, P key → P' key) : access.Within P' :=
  Dialogue.Within.mono h hP

/-- On contents with the same records of this property an operation comes to the same. -/
theorem Within.eval_eq (h : access.Within P) {c c' : Contents}
    (hc : ∀ key, P key → c key = c' key) : access.eval c = access.eval c' :=
  Dialogue.Within.eval_eq h hc

/-- An operation leaves the records without this property as they are. -/
theorem Within.write_eq (h : access.Within P) (c : Contents) {key : Bytes} (hkey : ¬ P key) :
    c.write (access.eval c).2 key = c key := by
  refine Contents.write_of_forall_ne (fun p hp heq => hkey ?_) c
  exact heq ▸ Dialogue.Within.puts h c p hp

end Access

/-! ## Sessions -/

namespace SessionM

/-- Every record that the action reads or writes has some property. -/
def Within (P : Bytes → Prop) (m : SessionM α) : Prop := ∀ s : Session, (m.run s).Within P

variable {m : SessionM α} {f : α → SessionM β}

theorem within_pure (a : α) : Within P (pure a) := fun _ => Access.within_pure _

theorem within_throw (failure : Failure) : Within P (throw failure : SessionM α) :=
  fun _ => Access.within_throw _

theorem within_get : Within P get := fun _ => Access.within_pure _

theorem within_modify (g : Session → Session) : Within P (modify g : SessionM Unit) :=
  fun _ => Access.within_pure _

theorem Within.bind (h : Within P m) (hf : ∀ a, Within P (f a)) : Within P (m >>= f) :=
  fun s => (h s).bind fun p => hf p.1 p.2

theorem within_lift {access : Access α} (h : access.Within P) : Within P (liftM access) :=
  fun _ => Access.Within.bind h fun _ => Access.within_pure _

end SessionM

/-! ## Walks -/

namespace WalkM

/-- Every record that the action reads or writes has some property. -/
def Within (P : Bytes → Prop) (m : WalkM α) : Prop :=
  ∀ w : Walk, Dialogue.Within P (m.run.run w)

variable {m : WalkM α} {f : α → WalkM β}

theorem within_pure (a : α) : Within P (pure a) := fun _ => trivial

theorem within_throw (failure : Failure) : Within P (throw failure : WalkM α) := fun _ => trivial

theorem within_get : Within P get := fun _ => trivial

theorem within_set (w : Walk) : Within P (set w : WalkM PUnit) := fun _ => trivial

theorem within_modify (g : Walk → Walk) : Within P (modify g : WalkM Unit) := fun _ => trivial

theorem Within.bind (h : Within P m) (hf : ∀ a, Within P (f a)) : Within P (m >>= f) := by
  intro w
  refine Dialogue.Within.bind (h w) fun p => ?_
  obtain ⟨reply, w'⟩ := p
  cases reply with
  | ok a => exact hf a w'
  | error failure => trivial

theorem within_ask {access : Access α} (h : access.Within P) : Within P (Walk.ask access) :=
  fun _ => Dialogue.Within.bind h fun _ => trivial

end WalkM

end Leaderboard
