import ClearSign.Attempt

/-!
This module contains how computations that may stop with a fault are taken apart.
-/

namespace ClearSign

@[simp]
theorem ok_bind (a : α) (f : α → Except ε β) : (Except.ok a >>= f) = f a := rfl

@[simp]
theorem error_bind (fault : ε) (f : α → Except ε β) :
    ((Except.error fault : Except ε α) >>= f) = .error fault := rfl

theorem bind_eq_ok {x : Except ε α} {f : α → Except ε β} {b : β} :
    (x >>= f) = .ok b ↔ ∃ a, x = .ok a ∧ f a = .ok b := by
  cases x with
  | error fault => simp
  | ok a => simp

theorem bind_eq_error {x : Except ε α} {f : α → Except ε β} {fault : ε} :
    (x >>= f) = .error fault ↔ x = .error fault ∨ ∃ a, x = .ok a ∧ f a = .error fault := by
  cases x with
  | error other => simp
  | ok a => simp

theorem toOption_eq_some_iff {x : Except ε α} : x.toOption = some a ↔ x = .ok a := by
  cases x with
  | error fault => simp [Except.toOption]
  | ok b => simp [Except.toOption]

theorem Attempt.perform_bind_eq_ok {x : Attempt σ α} {f : α → Attempt σ β} {s t : σ} {b : β} :
    (x >>= f).perform s = (.ok b, t) ↔
      ∃ a u, x.perform s = (.ok a, u) ∧ (f a).perform u = (.ok b, t) := by
  rw [perform_bind]
  rcases x.perform s with ⟨fault | a, u⟩
  · simp
  · constructor
    · intro h
      exact ⟨a, u, rfl, h⟩
    · rintro ⟨_, _, heq, h⟩
      cases heq
      exact h

theorem Attempt.perform_bind_eq_error {x : Attempt σ α} {f : α → Attempt σ β} {s t : σ}
    {fault : Fault} :
    (x >>= f).perform s = (.error fault, t) ↔
      x.perform s = (.error fault, t) ∨
        ∃ a u, x.perform s = (.ok a, u) ∧ (f a).perform u = (.error fault, t) := by
  rw [perform_bind]
  rcases x.perform s with ⟨other | a, u⟩
  · simp
  · constructor
    · intro h
      exact .inr ⟨a, u, rfl, h⟩
    · rintro (heq | ⟨_, _, heq, h⟩)
      · cases heq
      · cases heq
        exact h

theorem Attempt.perform_lift_eq_ok {x : Except Fault α} {s t : σ} {a : α} :
    (liftM x : Attempt σ α).perform s = (.ok a, t) ↔ x = .ok a ∧ t = s := by
  cases x with
  | error fault => simp
  | ok b => simp [eq_comm]

theorem mapM_of_forall {f : α → Except ε β} {g : α → β} {as : List α}
    (h : ∀ a ∈ as, f a = .ok (g a)) : as.mapM f = .ok (as.map g) := by
  induction as with
  | nil => rfl
  | cons a as ih =>
    rw [List.forall_mem_cons] at h
    rw [List.mapM_cons, h.1, ok_bind, ih h.2, ok_bind]
    rfl

theorem forM_eq_ok_iff {f : α → Except ε PUnit} {as : List α} :
    as.forM f = .ok ⟨⟩ ↔ ∀ a ∈ as, f a = .ok ⟨⟩ := by
  induction as with
  | nil => simp [List.forM, pure, Except.pure]
  | cons a as ih =>
    rw [List.forM, bind_eq_ok, List.forall_mem_cons, ← ih]
    constructor
    · rintro ⟨⟨⟩, ha, has⟩
      exact ⟨ha, has⟩
    · rintro ⟨ha, has⟩
      exact ⟨⟨⟩, ha, has⟩

def Attempt.Respects (related : σ → σ → Prop) (attempt : Attempt σ α) : Prop :=
  ∀ s t, related s t →
    (attempt.perform s).1 = (attempt.perform t).1 ∧
      related (attempt.perform s).2 (attempt.perform t).2

theorem Attempt.respects_pure (related : σ → σ → Prop) (a : α) :
    Respects related (pure a : Attempt σ α) := by
  intro s t h
  exact ⟨rfl, h⟩

theorem Attempt.respects_bind {related : σ → σ → Prop} {x : Attempt σ α} {f : α → Attempt σ β}
    (hx : Respects related x) (hf : ∀ a, Respects related (f a)) : Respects related (x >>= f) := by
  intro s t h
  obtain ⟨houtcome, hafter⟩ := hx s t h
  rw [perform_bind, perform_bind]
  generalize x.perform s = first at houtcome hafter
  generalize x.perform t = second at houtcome hafter
  obtain ⟨outcome, u⟩ := first
  obtain ⟨outcome', v⟩ := second
  cases houtcome
  cases outcome with
  | error fault => exact ⟨rfl, hafter⟩
  | ok a => exact hf a u v hafter

end ClearSign
