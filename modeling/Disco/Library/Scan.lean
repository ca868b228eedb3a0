import Disco.Library.Loop

/-! # Scanners

A scanner works on a state that shrinks as input is passed over, and may fail. Its loops
are bounded by what is left of the input: every turn that goes on spends some of it, so
the bound is never what ends them.
-/

namespace Disco.Library

/-- A computation on states `σ` that fails with an `ε`. -/
abbrev Scan (σ ε : Type) := StateT σ (Except ε)

namespace Scan

variable {σ ε α β : Type}

/-- Turns until one says that it was the last. -/
def iterate (turn : α → Scan σ ε (α ⊕ β)) (exhausted : ε) : Nat → α → Scan σ ε β
  | 0, _ => fun _ => .error exhausted
  | fuel + 1, a => do
      match ← turn a with
      | .inl b => iterate turn exhausted fuel b
      | .inr r => pure r

theorem bind_run (x : Scan σ ε α) (f : α → Scan σ ε β) (s : σ) : (x >>= f) s = x s >>= fun p => f p.1 p.2 := rfl

@[simp] theorem pure_run (a : α) (s : σ) : (pure a : Scan σ ε α) s = .ok (a, s) := rfl

theorem bind_of_ok {x : Scan σ ε α} {s t : σ} {a : α} (h : x s = .ok (a, t)) (f : α → Scan σ ε β) :
    (x >>= f) s = f a t := by
  rw [bind_run, h]
  rfl

theorem bind_of_error {x : Scan σ ε α} {s : σ} {e : ε} (h : x s = .error e) (f : α → Scan σ ε β) :
    (x >>= f) s = .error e := by
  rw [bind_run, h]
  rfl

theorem bind_eq_ok {x : Scan σ ε α} {f : α → Scan σ ε β} {s t : σ} {r : β} :
    (x >>= f) s = .ok (r, t) ↔ ∃ a u, x s = .ok (a, u) ∧ f a u = .ok (r, t) := by
  rw [bind_run, Library.bind_eq_ok]
  constructor
  · rintro ⟨⟨a, u⟩, hx, hf⟩
    exact ⟨a, u, hx, hf⟩
  · rintro ⟨a, u, hx, hf⟩
    exact ⟨(a, u), hx, hf⟩

theorem iterate_of_inl {turn : α → Scan σ ε (α ⊕ β)} {exhausted : ε} {fuel : Nat} {a b : α} {s t : σ}
    (h : turn a s = .ok (.inl b, t)) : iterate turn exhausted (fuel + 1) a s = iterate turn exhausted fuel b t :=
  bind_of_ok h _

theorem iterate_of_inr {turn : α → Scan σ ε (α ⊕ β)} {exhausted : ε} {fuel : Nat} {a : α} {r : β} {s t : σ}
    (h : turn a s = .ok (.inr r, t)) : iterate turn exhausted (fuel + 1) a s = .ok (r, t) :=
  bind_of_ok h _

theorem iterate_of_error {turn : α → Scan σ ε (α ⊕ β)} {exhausted e : ε} {fuel : Nat} {a : α} {s : σ}
    (h : turn a s = .error e) : iterate turn exhausted (fuel + 1) a s = .error e :=
  bind_of_error h _

/-! ## What is spent -/

variable {μ : σ → Nat} {exhausted : ε} {k : α → Nat} {m : β → Nat}

/-- The scanner does not run out of turns, and where it returns an `a` it has spent at
least `k a` of the measure. -/
def Spends (μ : σ → Nat) (exhausted : ε) (k : α → Nat) (x : Scan σ ε α) : Prop :=
  ∀ s, Ends (fun p : α × σ => μ p.2 + k p.1 ≤ μ s) (· ≠ exhausted) (x s)

theorem Spends.pure {a : α} (h : k a = 0) : Spends μ exhausted k (Pure.pure a : Scan σ ε α) := by
  intro s
  show μ s + k a ≤ μ s
  omega

theorem Spends.fail {e : ε} (h : e ≠ exhausted) : Spends μ exhausted k (fun _ => .error e : Scan σ ε α) := fun _ => h

theorem Spends.bind {x : Scan σ ε α} {f : α → Scan σ ε β} (hx : Spends μ exhausted k x)
    (hf : ∀ a, Spends μ exhausted (fun b => m b - k a) (f a)) : Spends μ exhausted m (x >>= f) := by
  intro s
  refine (hx s).bind ?_
  rintro ⟨a, t⟩ hle
  refine (hf a t).mono ?_
  rintro ⟨b, u⟩ hle'
  simp only at hle hle' ⊢
  omega

theorem Spends.mono {k' : α → Nat} {x : Scan σ ε α} (hx : Spends μ exhausted k x) (hle : ∀ a, k' a ≤ k a) :
    Spends μ exhausted k' x := by
  intro s
  refine (hx s).mono ?_
  rintro ⟨a, t⟩ h
  have := hle a
  simp only at h ⊢
  omega

theorem Spends.ite {p : Prop} [Decidable p] {x y : Scan σ ε α} (hx : p → Spends μ exhausted k x)
    (hy : ¬ p → Spends μ exhausted k y) : Spends μ exhausted k (if p then x else y) := by
  split
  · next hp => exact hx hp
  · next hp => exact hy hp

/-- What is spent first is spent. -/
theorem Spends.first {x : Scan σ ε α} {f : α → Scan σ ε β} (hx : Spends μ exhausted (fun _ => 1) x)
    (hf : ∀ a, Spends μ exhausted (fun _ => 0) (f a)) (hm : ∀ b, m b ≤ 1) : Spends μ exhausted m (x >>= f) := by
  refine hx.bind fun a => (hf a).mono fun b => ?_
  have := hm b
  omega

/-- A loop whose turns spend something before they go on ends before its bound. -/
theorem Spends.iterate {turn : α → Scan σ ε (α ⊕ β)} (hturn : ∀ a, Spends μ exhausted (Sum.elim (fun _ => 1) m) (turn a))
    {fuel : Nat} {a : α} {s : σ} (hfuel : μ s < fuel) :
    Ends (fun p : β × σ => μ p.2 + m p.1 ≤ μ s) (· ≠ exhausted) (Scan.iterate turn exhausted fuel a s) := by
  induction fuel generalizing a s with
  | zero => omega
  | succ fuel ih =>
      refine (hturn a s).bind ?_
      rintro ⟨b | r, t⟩ hle
      · simp only [Sum.elim_inl] at hle
        refine (ih (by omega)).mono fun p hp => ?_
        omega
      · exact hle

end Scan

end Disco.Library
