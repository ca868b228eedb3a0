import Mathlib

/-! # Checked computations

Programs that validate their input abort with a message at the first check
that fails. `Except` keeps the order of the checks, and the rules below peel a
successful run apart one check at a time.
-/

namespace Disco.Library

variable {ε α β : Type}

/-- Abort with `message` when the rejected condition holds. -/
def rejectIf (bad : Prop) [Decidable bad] (message : ε) : Except ε Unit :=
  if bad then .error message else .ok ()

@[simp] theorem rejectIf_eq_ok {bad : Prop} [Decidable bad] {message : ε} {u : Unit} :
    rejectIf bad message = .ok u ↔ ¬ bad := by
  unfold rejectIf
  split <;> simp_all

/-- A sequence succeeds exactly when its first part does and the rest does on
the value that part produced. -/
theorem bind_eq_ok {x : Except ε α} {f : α → Except ε β} {r : β} :
    (x >>= f) = .ok r ↔ ∃ a, x = .ok a ∧ f a = .ok r := by
  cases x with
  | error e => simp [bind, Except.bind]
  | ok a =>
      constructor
      · intro h
        exact ⟨a, rfl, h⟩
      · rintro ⟨b, hb, hf⟩
        cases hb
        exact hf

theorem exists_unit {p : Unit → Prop} : (∃ u, p u) ↔ p () :=
  ⟨fun ⟨_, h⟩ => h, fun h => ⟨(), h⟩⟩

@[simp] theorem ok_bind (a : α) (f : α → Except ε β) :
    ((Except.ok a : Except ε α) >>= f) = f a := rfl

@[simp] theorem pure_eq_ok {a b : α} : (pure a : Except ε α) = .ok b ↔ a = b := by
  simp [pure, Except.pure]

@[simp] theorem rejectIf_bind_eq_ok {bad : Prop} [Decidable bad] {message : ε}
    {f : Unit → Except ε β} {r : β} :
    (rejectIf bad message >>= f) = .ok r ↔ ¬ bad ∧ f () = .ok r := by
  rw [bind_eq_ok]
  constructor
  · rintro ⟨u, hu, hf⟩
    exact ⟨rejectIf_eq_ok.mp hu, hf⟩
  · rintro ⟨hb, hf⟩
    exact ⟨(), rejectIf_eq_ok.mpr hb, hf⟩

/-- Renaming the failures of a computation does not change when it succeeds. -/
theorem mapError_eq_ok {ε' : Type} {x : Except ε α} {f : ε → ε'} {a : α} :
    x.mapError f = .ok a ↔ x = .ok a := by
  cases x <;> simp [Except.mapError]

end Disco.Library
