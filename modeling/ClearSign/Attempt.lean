import ClearSign.Fault

/-!
This module contains computations that change a state and may stop with a fault. What was done
before the fault stays done, so a failed attempt still has a final state.
-/

namespace ClearSign

abbrev Attempt (σ α : Type) := ExceptT Fault (StateM σ) α

namespace Attempt

def perform (attempt : Attempt σ α) (s : σ) : Except Fault α × σ :=
  ExceptT.run attempt s

def within (part : Attempt τ α) (read : σ → τ) (write : τ → σ → σ) : Attempt σ α :=
  -- The part is put back whatever the outcome.
  ExceptT.mk fun s =>
    let (outcome, t) := part.perform (read s)
    (outcome, write t s)

@[simp]
theorem perform_within (part : Attempt τ α) (read : σ → τ) (write : τ → σ → σ) (s : σ) :
    perform (part.within read write) s =
      ((part.perform (read s)).1, write (part.perform (read s)).2 s) := rfl

@[simp]
theorem perform_pure (a : α) (s : σ) : perform (pure a : Attempt σ α) s = (.ok a, s) := rfl

@[simp]
theorem perform_throw (fault : Fault) (s : σ) :
    perform (throw fault : Attempt σ α) s = (.error fault, s) := rfl

@[simp]
theorem perform_get (s : σ) : perform (get : Attempt σ σ) s = (.ok s, s) := rfl

@[simp]
theorem perform_set (s t : σ) : perform (set t : Attempt σ PUnit) s = (.ok ⟨⟩, t) := rfl

@[simp]
theorem perform_modify (f : σ → σ) (s : σ) :
    perform (modify f : Attempt σ PUnit) s = (.ok ⟨⟩, f s) := rfl

@[simp]
theorem perform_lift_ok (a : α) (s : σ) :
    perform (liftM (Except.ok a : Except Fault α) : Attempt σ α) s = (.ok a, s) := rfl

@[simp]
theorem perform_lift_error (fault : Fault) (s : σ) :
    perform (liftM (Except.error fault : Except Fault α) : Attempt σ α) s =
      (.error fault, s) := rfl

theorem perform_bind (x : Attempt σ α) (f : α → Attempt σ β) (s : σ) :
    perform (x >>= f) s =
      match perform x s with
      | (.ok a, t) => perform (f a) t
      | (.error fault, t) => (.error fault, t) := by
  show (ExceptT.run x >>= ExceptT.bindCont f) s = _
  simp only [bind, StateT.bind]
  show (match ExceptT.run x s with | (a, t) => ExceptT.bindCont f a t) = _
  rcases h : ExceptT.run x s with ⟨_ | _, t⟩ <;> simp [perform, h, ExceptT.bindCont] <;> rfl

end Attempt

end ClearSign
